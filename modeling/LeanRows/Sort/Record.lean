import LeanRows.Lib.ByteFile
import LeanRows.Sort.Bounds
import LeanRows.Sort.Rows

/-!
# Scratch records

A descriptor is kept on disk as a record of fixed length. Every descriptor the key machines make
fits into its record, and a record that is accepted is that of a descriptor whose key lies inside
its row.
-/

namespace LeanRows.Sort

set_option autoImplicit false

open ByteFile

abbrev ScratchRecord := Vector Byte 128

/-- The bytes of a record in use. -/
def fieldBytes : Nat := 115

/-- What `encode` writes, from the first byte on. -/
def Descriptor.fields (d : Descriptor) : List (Nat × List Byte) :=
  ([d.row, d.start, d.stop, d.keyStart, d.keyEnd].zipIdx.map fun field =>
    (field.2 * 8, leBytes 8 field.1)) ++
  [(40, d.prefixBytes.toList), (72, leBytes 8 d.len), (80, leIntBytes 16 d.magnitude),
    (96, leBytes 8 d.leading), (104, leBytes 8 d.digits), (112, leBytes 1 d.group),
    (113, leIntBytes 1 d.sign), (114, [if d.quoted then 1 else 0])]

theorem Descriptor.fields_contiguous (d : Descriptor) : Contiguous 0 d.fields fieldBytes := by
  have hprefix : d.prefixBytes.toList.length = 32 := Vector.length_toList
  simp [fields, Contiguous, fieldBytes, hprefix]

def encode (d : Descriptor) : ScratchRecord :=
  ⟨(writeFields (List.replicate 128 0) d.fields).toArray, by
    rw [List.size_toArray, length_writeFields d.fields_contiguous (by simp [fieldBytes])]
    exact List.length_replicate⟩

def keyPrefix (b : ScratchRecord) : Vector Byte prefixLen := (b.extract 40 72).cast (by decide)

/-- The descriptor in a record, whatever its bytes are. -/
def readFields (b : ScratchRecord) : Descriptor :=
  let u := fun start => leNat (readAt b.toList start 8)
  { row := u 0
    start := u 8
    stop := u 16
    keyStart := u 24
    keyEnd := u 32
    prefixBytes := keyPrefix b
    len := u 72
    magnitude := leInt (readAt b.toList 80 16)
    leading := u 96
    digits := u 104
    group := b[112].toNat
    sign := leInt [b[113]]
    quoted := b[114] == 1 }

def decode (b : ScratchRecord) : Except SortError Descriptor :=
  let d := readFields b
  if d.keyStart < d.start ∨ d.keyEnd < d.keyStart ∨ d.stop < d.keyEnd ∨ 2 < d.group ∨
      ¬ (-1 ≤ d.sign ∧ d.sign ≤ 1) ∨ 1 < b[114].toNat then .error .invalidScratch
  else .ok d

/-! ## Round trips -/

theorem readAt_encode {d : Descriptor} {offset len : Nat} {bytes : List Byte}
    (h : (offset, bytes) ∈ d.fields) (hlen : bytes.length = len) :
    readAt (encode d).toList offset len = bytes := by
  have hblank : fieldBytes ≤ (List.replicate 128 (0 : Byte)).length := by simp [fieldBytes]
  rw [← hlen]
  exact readAt_writeFields d.fields_contiguous hblank h

theorem readAt_one (b : ScratchRecord) {i : Nat} (h : i < 128) : readAt b.toList i 1 = [b[i]] := by
  have hlen : i < b.toList.length := by simpa using h
  rw [readAt, List.drop_eq_getElem_cons hlen]
  simp

theorem readAt_keyPrefix (b : ScratchRecord) : readAt b.toList 40 32 = (keyPrefix b).toList := by
  rw [keyPrefix, Vector.toList_cast, Vector.toList_extract, readAt]

theorem getElem_encode {d : Descriptor} {i : Nat} (hi : i < 128) {byte : Byte}
    (h : (i, [byte]) ∈ d.fields) : (encode d)[i] = byte := by
  have hread := readAt_encode h (show [byte].length = 1 from rfl)
  rw [readAt_one _ hi] at hread
  exact (List.cons.inj hread).1

theorem quoted_encode (d : Descriptor) : (encode d)[114] = if d.quoted then 1 else 0 :=
  getElem_encode (by decide) (by simp [Descriptor.fields])

theorem readFields_encode {d : Descriptor} (h : d.Fits) : readFields (encode d) = d := by
  have hbound : u64Bound = 256 ^ 8 := rfl
  have hstart := h.start_le
  have hkey := h.key_le
  have hend := h.keyEnd_le
  have hstop := h.stop
  have hnumber : ∀ offset n, (offset, leBytes 8 n) ∈ d.fields → n < u64Bound →
      leNat (readAt (encode d).toList offset 8) = n := by
    intro offset n hmem hn
    rw [readAt_encode hmem (leBytes_length 8 n)]
    exact leNat_leBytes 8 n (hbound ▸ hn)
  have hrow := hnumber 0 d.row (by simp [Descriptor.fields]) h.row
  have hstart := hnumber 8 d.start (by simp [Descriptor.fields]) (by omega)
  have hstop := hnumber 16 d.stop (by simp [Descriptor.fields]) h.stop
  have hkeyStart := hnumber 24 d.keyStart (by simp [Descriptor.fields]) (by omega)
  have hkeyEnd := hnumber 32 d.keyEnd (by simp [Descriptor.fields]) (by omega)
  have hlen := hnumber 72 d.len (by simp [Descriptor.fields]) h.len
  have hleading := hnumber 96 d.leading (by simp [Descriptor.fields]) h.leading
  have hdigits := hnumber 104 d.digits (by simp [Descriptor.fields]) h.digits
  have hprefix : keyPrefix (encode d) = d.prefixBytes := by
    apply Vector.toList_inj.mp
    rw [← readAt_keyPrefix]
    exact readAt_encode (by simp [Descriptor.fields]) Vector.length_toList
  have hmagnitude : leInt (readAt (encode d).toList 80 16) = d.magnitude := by
    obtain ⟨hlow, hhigh⟩ := h.magnitude
    have hmem : (80, leIntBytes 16 d.magnitude) ∈ d.fields := by simp [Descriptor.fields]
    rw [readAt_encode hmem (leIntBytes_length 16 _)]
    exact leInt_leIntBytes 16 _ (by norm_num; omega) (by norm_num; omega)
  have hgroup : (encode d)[112].toNat = d.group := by
    have hle := h.group
    have hmem : (112, [UInt8.ofNat d.group]) ∈ d.fields := by simp [Descriptor.fields, leBytes]
    rw [getElem_encode (by decide) hmem, UInt8.toNat_ofNat']
    omega
  have hsign : leInt [(encode d)[113]] = d.sign := by
    obtain ⟨hlow, hhigh⟩ := h.sign
    have hmem : (113, leIntBytes 1 d.sign) ∈ d.fields := by simp [Descriptor.fields]
    rw [← readAt_one (encode d) (by decide), readAt_encode hmem (leIntBytes_length 1 _)]
    exact leInt_leIntBytes 1 _ (by norm_num; omega) (by norm_num; omega)
  have hquoted : ((encode d)[114] == 1) = d.quoted := by
    rw [quoted_encode]
    cases d.quoted <;> rfl
  simp only [readFields, hrow, hstart, hstop, hkeyStart, hkeyEnd, hprefix, hlen, hmagnitude,
    hleading, hdigits, hgroup, hsign, hquoted]

/-- What a record is read as is written back to the same bytes. -/
theorem take_encode_readFields {b : ScratchRecord} (hquoted : b[114].toNat ≤ 1) :
    (encode (readFields b)).toList.take fieldBytes = b.toList.take fieldBytes := by
  have hread : ∀ offset len, offset + len ≤ 128 → (readAt b.toList offset len).length = len :=
    fun offset len h => readAt_length (h.trans_eq Vector.length_toList.symm)
  have hnumber : ∀ offset, offset + 8 ≤ 128 →
      readAt b.toList offset 8 = leBytes 8 (leNat (readAt b.toList offset 8)) := by
    intro offset h
    have hfield := leBytes_leNat (readAt b.toList offset 8)
    rw [hread offset 8 h] at hfield
    exact hfield.symm
  have hmagnitude : readAt b.toList 80 16 = leIntBytes 16 (leInt (readAt b.toList 80 16)) := by
    have hfield := leIntBytes_leInt (readAt b.toList 80 16)
    rw [hread 80 16 (by decide)] at hfield
    exact hfield.symm
  have hsign : readAt b.toList 113 1 = leIntBytes 1 (leInt [b[113]]) := by
    rw [readAt_one b (by decide)]
    exact (leIntBytes_leInt [b[113]]).symm
  have hgroup : readAt b.toList 112 1 = leBytes 1 b[112].toNat := by
    rw [readAt_one b (by decide)]
    simp [leBytes]
  have hflag : readAt b.toList 114 1 = [if b[114] == 1 then 1 else 0] := by
    rw [readAt_one b (by decide)]
    generalize b[114] = byte at hquoted
    obtain rfl | rfl : byte = 0 ∨ byte = 1 := by
      rw [← UInt8.toNat_inj, ← UInt8.toNat_inj]
      exact Nat.le_one_iff_eq_zero_or_eq_one.mp hquoted
    · rfl
    · rfl
  have hfield : ∀ {offset len : Nat} {bytes : List Byte}, bytes.length = len →
      readAt b.toList offset len = bytes → readAt b.toList offset bytes.length = bytes := by
    rintro offset _ bytes rfl h
    exact h
  refine take_writeFields_readAt (readFields b).fields_contiguous (by simp [fieldBytes]) ?_ rfl
  intro field hmem
  simp only [Descriptor.fields, List.zipIdx, List.map_cons, List.map_nil, List.cons_append,
    List.nil_append, List.mem_cons, List.not_mem_nil, or_false] at hmem
  rcases hmem with rfl | rfl | rfl | rfl | rfl | rfl | rfl | rfl | rfl | rfl | rfl | rfl | rfl
  · exact hfield (leBytes_length 8 _) (hnumber 0 (by decide))
  · exact hfield (leBytes_length 8 _) (hnumber 8 (by decide))
  · exact hfield (leBytes_length 8 _) (hnumber 16 (by decide))
  · exact hfield (leBytes_length 8 _) (hnumber 24 (by decide))
  · exact hfield (leBytes_length 8 _) (hnumber 32 (by decide))
  · exact hfield Vector.length_toList (readAt_keyPrefix b)
  · exact hfield (leBytes_length 8 _) (hnumber 72 (by decide))
  · exact hfield (leIntBytes_length 16 _) hmagnitude
  · exact hfield (leBytes_length 8 _) (hnumber 96 (by decide))
  · exact hfield (leBytes_length 8 _) (hnumber 104 (by decide))
  · exact hfield (leBytes_length 1 _) hgroup
  · exact hfield (leIntBytes_length 1 _) hsign
  · exact hfield rfl hflag

theorem decode_encode {d : Descriptor} (h : d.Fits) : decode (encode d) = .ok d := by
  have hquoted : (encode d)[114].toNat ≤ 1 := by
    rw [quoted_encode]
    cases d.quoted <;> decide
  have hstart := h.start_le
  have hkey := h.key_le
  have hend := h.keyEnd_le
  have hgroup := h.group
  have hsign := h.sign
  simp only [decode, readFields_encode h]
  rw [if_neg (by omega)]

theorem decode_eq_error {b : ScratchRecord} {error : SortError} (h : decode b = .error error) :
    error = .invalidScratch := by
  simp only [decode] at h
  split at h
  · cases h
    rfl
  · cases h

/-- A record that is accepted holds a key inside its row, and is written back as it is. -/
theorem decode_eq_ok {b : ScratchRecord} {d : Descriptor} (h : decode b = .ok d) :
    d.Inside ∧ (encode d).toList.take fieldBytes = b.toList.take fieldBytes := by
  simp only [decode] at h
  split at h
  · cases h
  · rename_i hvalid
    cases h
    exact ⟨⟨by omega, by omega, by omega⟩, take_encode_readFields (by omega)⟩

/-! ## Reading the keys of records -/

/-- Every byte the source was asked for belongs to one of the two rows. -/
def ReadsInside (a b : Descriptor) (log : List SourceEvent) : Prop :=
  ∀ offset len answer, .read offset len answer ∈ log →
    (a.start ≤ offset ∧ offset + len ≤ a.stop) ∨ (b.start ≤ offset ∧ offset + len ≤ b.stop)

theorem serves_logged {W : Type} (source : PositionedRead W) {a b : Descriptor} {low high : Nat}
    (h : ∀ offset len, low ≤ offset → offset + len ≤ high →
      (a.start ≤ offset ∧ offset + len ≤ a.stop) ∨ (b.start ≤ offset ∧ offset + len ≤ b.stop)) :
    Serves (fun p => ReadsInside a b p.1) (source.logged id) low high := by
  intro offset len hlow hhigh
  refine .self ?_
  rintro ⟨log, w⟩ hlog
  have hread : ReadsInside a b (log ++ [.read offset len (source.readAt w offset len).1]) := by
    intro offset' len' answer hmem
    rcases List.mem_append.mp hmem with hold | hnew
    · exact hlog offset' len' answer hold
    · cases List.mem_singleton.mp hnew
      exact h offset len hlow hhigh
  simp only [checkedRead, PositionedRead.logged, id]
  rcases hrun : source.readAt w offset len with ⟨error | bytes, w'⟩
  · rw [hrun] at hread
    exact hread
  · rw [hrun] at hread
    dsimp only
    split_ifs
    · exact hread
    · exact hread

theorem compare_reads {W : Type} (source : PositionedRead W) {a b : Descriptor} (ha : a.Inside)
    (hb : b.Inside) (request : SortRequest) (quote : Byte) (budgets : List Nat) (w : W) :
    ReadsInside a b (Exec.resume
      (fun budget (c : Comparison) => c.advance (source.logged id) budget) budgets
      (.new a b request quote) ([], w)).2.1 := by
  have hleft := ha.start_le
  have hleft' := ha.keyEnd_le
  have hright := hb.start_le
  have hright' := hb.keyEnd_le
  have hstart : ReadsInside a b [] := fun _ _ _ h => by cases h
  exact (compare_inside (serves_logged source fun _ _ _ _ => .inl ⟨by omega, by omega⟩)
    (serves_logged source fun _ _ _ _ => .inr ⟨by omega, by omega⟩) ha hb request quote budgets
    ([], w) hstart).2

/-- The keys found and described for a row are kept in their records. A record is refused, or it
is that of a key inside its row, and no comparison reads anything else. -/
theorem record_codec {W : Type} (source : PositionedRead W) (format : ViewportFormat)
    (request : SortRequest) {row : Nat} {span : RecordSpan} (hrow : row < u64Bound)
    (hspan : span.stop < u64Bound) :
    (∀ budgets w d, (locate source format row span request.column budgets w).1 = .ok (some d) →
      decode (encode d) = .ok d) ∧
    (∀ locating building w d,
      (extractKey source format request.mode row span request.column locating building w).1 =
        .ok (some d) → decode (encode d) = .ok d) ∧
    (∀ b, decode b = .error .invalidScratch ∨ ∃ d, decode b = .ok d ∧
      (d.start ≤ d.keyStart ∧ d.keyStart ≤ d.keyEnd ∧ d.keyEnd ≤ d.stop) ∧
      (encode d).toList.take 115 = b.toList.take 115) ∧
    ∀ record record' a b, decode record = .ok a → decode record' = .ok b →
      ∀ quote budgets w, ReadsInside a b (Exec.resume
        (fun budget (c : Comparison) => c.advance (source.logged id) budget) budgets
        (.new a b request quote) ([], w)).2.1 := by
  refine ⟨fun budgets w d hd => ?_, fun locating building w d hd => ?_, fun b => ?_, ?_⟩
  · exact decode_encode (locate_fits hrow hspan budgets w (some d) hd d rfl)
  · exact decode_encode
      (extractKey_fits hrow hspan request.mode locating building w (some d) hd d rfl)
  · cases hdecode : decode b with
    | error error => exact .inl (decode_eq_error hdecode ▸ rfl)
    | ok d =>
      obtain ⟨hinside, hbytes⟩ := decode_eq_ok hdecode
      exact .inr ⟨d, rfl, ⟨hinside.start_le, hinside.key_le, hinside.keyEnd_le⟩, hbytes⟩
  · intro record record' a b ha hb quote budgets w
    exact compare_reads source (decode_eq_ok ha).1 (decode_eq_ok hb).1 request quote budgets w

theorem record_codec_two_lines :
    ∃ d, Extracted (.ofBytes [98, 10, 97] (by decide)) .lines [98, 10, 97]
        ⟨0, .text, .descending⟩ 1 d ∧ decode (encode d) = .ok d := by
  have hsteady := PositionedRead.ofBytes_steady [98, 10, 97] (by decide)
  obtain ⟨d, hd⟩ : ∃ d, Extracted (.ofBytes [98, 10, 97] (by decide)) .lines [98, 10, 97]
      ⟨0, .text, .descending⟩ 1 d := exists_extracted hsteady () rfl (by decide)
  obtain ⟨span, hspan, w, locating, building, hrun⟩ := hd
  have hstop : span.stop < u64Bound :=
    (record_stop_le (List.mem_of_getElem? hspan)).trans_lt (by decide)
  obtain ⟨-, hcodec, -⟩ := record_codec (.ofBytes [98, 10, 97] (by decide)) .lines
    ⟨0, .text, .descending⟩ (show 1 < u64Bound by decide) hstop
  exact ⟨d, ⟨span, hspan, w, locating, building, hrun⟩, hcodec locating building w d hrun⟩

end LeanRows.Sort
