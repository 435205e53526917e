import LeanRows.Lib.Kmp
import LeanRows.Segmentation

/-!
# Literals and their occurrences

`recordHits` lists the occurrences of a needle inside one record, overlapping ones too,
and `documentHits` those of a document in the order a query stores them. The compiled
literal finds them one byte at a time.
-/

namespace LeanRows

set_option autoImplicit false

inductive LiteralMatchMode where
  | exact
  | asciiCaseInsensitive
deriving DecidableEq, Repr

def toAsciiLowercase (byte : Byte) : Byte :=
  if 65 ≤ byte ∧ byte ≤ 90 then byte + 32 else byte

def LiteralMatchMode.fold (mode : LiteralMatchMode) (byte : Byte) : Byte :=
  match mode with
  | .exact => byte
  | .asciiCaseInsensitive => toAsciiLowercase byte

/-- One raw literal match, addressed against the original source snapshot. -/
structure QueryHit where
  row : Nat
  span : RecordSpan
deriving DecidableEq, Repr

/-! ## What a query is to find -/

structure Literal where
  needle : List Byte
  mode : LiteralMatchMode
  nonempty : needle ≠ []

namespace Literal

variable (literal : Literal) (document : List Byte)

def len : Nat := literal.needle.length

theorem len_pos : 0 < literal.len := List.length_pos_iff.mpr literal.nonempty

def fold (bytes : List Byte) : List Byte := bytes.map literal.mode.fold

def occursAt (start : Nat) : Bool :=
  literal.fold ((document.drop start).take literal.len) == literal.fold literal.needle

def hitAt (row start : Nat) : QueryHit := ⟨row, spanOfLen start literal.len⟩

/-- The occurrences inside the bytes from `start` to `stop`. -/
def hitsBetween (row start stop : Nat) : List QueryHit :=
  ((List.range' start (stop - start)).filter fun s =>
    decide (s + literal.len ≤ stop) && literal.occursAt document s).map (literal.hitAt row)

def recordHits (row : Nat) (span : RecordSpan) : List QueryHit :=
  literal.hitsBetween document row span.start span.stop

/-- The occurrences inside the records `spans`, the first of which is row `row`. -/
def hitsFrom (row : Nat) : List RecordSpan → List QueryHit
  | [] => []
  | span :: spans => literal.recordHits document row span ++ hitsFrom (row + 1) spans

def documentHits (format : ViewportFormat) : List QueryHit :=
  literal.hitsFrom document 0 (records format document)

variable {literal document}

/-- The starts that leave room for the needle are the first ones. -/
theorem hitsBetween_eq (row start stop : Nat) :
    literal.hitsBetween document row start stop =
      ((List.range' start (stop + 1 - literal.len - start)).filter
        (literal.occursAt document)).map (literal.hitAt row) := by
  have hpos := literal.len_pos
  have hsplit : List.range' start (stop - start) =
      List.range' start (stop + 1 - literal.len - start) ++
        List.range' (start + (stop + 1 - literal.len - start))
          (stop - start - (stop + 1 - literal.len - start)) := by
    rw [List.range'_append_1]
    congr 1
    omega
  have hroom : (List.range' start (stop + 1 - literal.len - start)).filter
      (fun s => decide (s + literal.len ≤ stop) && literal.occursAt document s) =
      (List.range' start (stop + 1 - literal.len - start)).filter
        (literal.occursAt document) := by
    apply List.filter_congr
    intro s hs
    obtain ⟨hge, hlt⟩ := List.mem_range'_1.mp hs
    simp only [Bool.and_eq_right_iff_imp, decide_eq_true_eq]
    intro _
    omega
  have hnone : (List.range' (start + (stop + 1 - literal.len - start))
      (stop - start - (stop + 1 - literal.len - start))).filter
      (fun s => decide (s + literal.len ≤ stop) && literal.occursAt document s) = [] := by
    apply List.filter_eq_nil_iff.mpr
    intro s hs
    obtain ⟨hge, hlt⟩ := List.mem_range'_1.mp hs
    rw [Bool.and_eq_true, decide_eq_true_eq]
    rintro ⟨hle, -⟩
    omega
  rw [hitsBetween, hsplit, List.filter_append, hroom, hnone, List.append_nil]

theorem hitsBetween_self (row start : Nat) :
    literal.hitsBetween document row start start = [] := by
  simp [hitsBetween]

/-- One byte more adds the occurrence that ends there, if there is one. -/
theorem hitsBetween_succ (row start stop : Nat) :
    literal.hitsBetween document row start (stop + 1) =
      literal.hitsBetween document row start stop ++
        if start + literal.len ≤ stop + 1 ∧
            literal.occursAt document (stop + 1 - literal.len) = true
        then [literal.hitAt row (stop + 1 - literal.len)] else [] := by
  have hpos := literal.len_pos
  rw [hitsBetween_eq, hitsBetween_eq]
  by_cases hroom : start + literal.len ≤ stop + 1
  · have hlen : stop + 1 + 1 - literal.len - start = stop + 1 - literal.len - start + 1 := by
      omega
    have hlast : start + 1 * (stop + 1 - literal.len - start) = stop + 1 - literal.len := by
      omega
    rw [hlen, List.range'_concat, hlast, List.filter_append, List.map_append]
    congr 1
    by_cases hoccurs : literal.occursAt document (stop + 1 - literal.len) = true <;>
      simp [hroom, hoccurs]
  · have hlen : stop + 1 + 1 - literal.len - start = stop + 1 - literal.len - start := by
      omega
    rw [hlen, if_neg (fun hends => hroom hends.1), List.append_nil]

theorem mem_hitsBetween {row start stop : Nat} {hit : QueryHit} :
    hit ∈ literal.hitsBetween document row start stop ↔
      ∃ s, start ≤ s ∧ s + literal.len ≤ stop ∧ literal.occursAt document s = true ∧
        hit = literal.hitAt row s := by
  have hpos := literal.len_pos
  simp only [hitsBetween, List.mem_map, List.mem_filter, List.mem_range'_1, Bool.and_eq_true,
    decide_eq_true_eq]
  constructor
  · rintro ⟨s, ⟨⟨hge, _⟩, hroom, hoccurs⟩, rfl⟩
    exact ⟨s, hge, hroom, hoccurs, rfl⟩
  · rintro ⟨s, hge, hroom, hoccurs, rfl⟩
    exact ⟨s, ⟨⟨hge, by omega⟩, hroom, hoccurs⟩, rfl⟩

theorem hitsFrom_append (row : Nat) (spans spans' : List RecordSpan) :
    literal.hitsFrom document row (spans ++ spans') =
      literal.hitsFrom document row spans ++
        literal.hitsFrom document (row + spans.length) spans' := by
  induction spans generalizing row with
  | nil => rfl
  | cons span spans ih =>
    simp only [List.cons_append, hitsFrom, ih, List.append_assoc, List.length_cons]
    rw [Nat.add_assoc, Nat.add_comm 1]

theorem hitsFrom_front (row : Nat) {spans spans' : List RecordSpan} (h : spans <+: spans') :
    literal.hitsFrom document row spans <+: literal.hitsFrom document row spans' := by
  obtain ⟨rest, rfl⟩ := h
  rw [hitsFrom_append]
  exact List.prefix_append _ _

/-- The text a matcher has read from a record, folded. -/
def textRead (literal : Literal) (document : List Byte) (start cursor : Nat) : List Byte :=
  literal.fold ((document.drop start).take (cursor - start))

/-- The needle ends the text read exactly where an occurrence ends. -/
theorem ends_iff_occursAt {start cursor : Nat} (hlen : cursor ≤ document.length) :
    literal.fold literal.needle <:+ literal.textRead document start cursor ↔
      start + literal.len ≤ cursor ∧ literal.occursAt document (cursor - literal.len) = true := by
  have hpos := literal.len_pos
  have hneedle : (literal.fold literal.needle).length = literal.len := List.length_map _
  have htext : (literal.textRead document start cursor).length = cursor - start := by
    simp only [textRead, fold, List.length_map, List.length_take, List.length_drop]
    omega
  have hdrop : (literal.textRead document start cursor).drop
      (cursor - start - literal.len) = literal.fold ((document.drop
        (start + (cursor - start - literal.len))).take
          (cursor - start - (cursor - start - literal.len))) := by
    simp only [textRead, fold]
    rw [← List.map_drop, List.drop_take, List.drop_drop]
  have hplace : start + literal.len ≤ cursor →
      start + (cursor - start - literal.len) = cursor - literal.len ∧
      cursor - start - (cursor - start - literal.len) = literal.len := by omega
  rw [List.suffix_iff_eq_drop, htext, hneedle, hdrop, occursAt, beq_iff_eq]
  constructor
  · intro hsuffix
    have hroom : literal.len ≤ cursor - start := by
      have hle := congrArg List.length hsuffix
      rw [hneedle] at hle
      simp only [fold, List.length_map, List.length_take, List.length_drop] at hle
      omega
    obtain ⟨hat, hcount⟩ := hplace (by omega)
    rw [hat, hcount] at hsuffix
    exact ⟨by omega, hsuffix.symm⟩
  · rintro ⟨hroom, hoccurs⟩
    obtain ⟨hat, hcount⟩ := hplace hroom
    rw [hat, hcount]
    exact hoccurs.symm

theorem textRead_succ {start cursor : Nat} {byte : Byte} (hstart : start ≤ cursor)
    (hbyte : document[cursor]? = some byte) :
    literal.textRead document start (cursor + 1) =
      literal.textRead document start cursor ++ [literal.mode.fold byte] := by
  have hlen : cursor + 1 - start = cursor - start + 1 := by omega
  have hat : start + (cursor - start) = cursor := by omega
  rw [textRead, textRead, hlen, List.take_add_one, List.getElem?_drop, hat, hbyte]
  simp [fold]

end Literal

/-! ## The compiled literal -/

structure CompiledLiteral where
  bytes : List Byte
  failure : List Nat
  mode : LiteralMatchMode
  nonempty : bytes ≠ []
  correct : Kmp.Correct bytes failure bytes.length

namespace CompiledLiteral

def new (literal : Literal) : CompiledLiteral where
  bytes := literal.fold literal.needle
  failure := Kmp.table (literal.fold literal.needle)
  mode := literal.mode
  nonempty := by
    have := literal.nonempty
    simpa [Literal.fold]
  correct := (Kmp.table_correct (by
    have := literal.nonempty
    simpa [Literal.fold])).2

def advance (compiled : CompiledLiteral) (state : Nat) (byte : Byte) : Nat × Bool :=
  Kmp.advance compiled.bytes compiled.failure state (compiled.mode.fold byte)

/-- The state is the one for what has been read of a record. -/
def Reads (compiled : CompiledLiteral) (text : List Byte) (state : Nat) : Prop :=
  Kmp.Longest compiled.bytes text (compiled.bytes.length - 1) state

theorem reads_nil (compiled : CompiledLiteral) : compiled.Reads [] 0 where
  le := Nat.zero_le _
  suffix := by simp
  longest j hj htake := by
    have hlen := htake.length_le
    have hpos := List.length_pos_iff.mpr compiled.nonempty
    rw [List.length_take, List.length_nil] at hlen
    omega

/-- The matcher reads the byte at the cursor: the hits up to it grow by the one that ends
there, and the matcher says whether there is one. -/
theorem advance_hits {literal : Literal} {document : List Byte} {start cursor state : Nat}
    {byte : Byte} (row : Nat) (hstart : start ≤ cursor)
    (hbyte : document[cursor]? = some byte)
    (h : (new literal).Reads (literal.textRead document start cursor) state) :
    (new literal).Reads (literal.textRead document start (cursor + 1))
      ((new literal).advance state byte).1 ∧
    literal.hitsBetween document row start (cursor + 1) =
      literal.hitsBetween document row start cursor ++
        if ((new literal).advance state byte).2 = true
        then [literal.hitAt row (cursor + 1 - literal.len)] else [] := by
  obtain ⟨hlen, -⟩ := List.getElem?_eq_some_iff.mp hbyte
  obtain ⟨hreads, hends⟩ := Kmp.advance_spec (literal.mode.fold byte) (new literal).nonempty
    (new literal).correct h
  rw [← Literal.textRead_succ hstart hbyte] at hreads hends
  refine ⟨hreads, ?_⟩
  rw [Literal.hitsBetween_succ]
  congr 1
  have hiff : ((new literal).advance state byte).2 = true ↔ start + literal.len ≤ cursor + 1 ∧
      literal.occursAt document (cursor + 1 - literal.len) = true :=
    hends.trans (Literal.ends_iff_occursAt hlen)
  simp only [hiff]

end CompiledLiteral

end LeanRows
