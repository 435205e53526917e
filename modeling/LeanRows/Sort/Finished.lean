import LeanRows.Sort.Batches
import LeanRows.Sort.Inverse
import LeanRows.Sort.Rows

/-!
# The finished sort

A sort of a document, from the descriptors of its rows to the two maps. The descriptors are merged
by what their comparison comes to, and the rows of the last run file go into the map of the order
and, with their ranks, into the builder of its inverse.
-/

set_option autoImplicit false

namespace LeanRows.Sort

open MergePass Inverse

section Finished
variable {W : Type} {source : PositionedRead W} {format : ViewportFormat} {document : List Byte}
  {request : SortRequest}

/-- A row of the document and the descriptor that the key machine has built for it. -/
structure Extraction (source : PositionedRead W) (format : ViewportFormat) (document : List Byte)
    (request : SortRequest) where
  row : Nat
  descriptor : Descriptor
  extracted : Extracted source format document request row descriptor

namespace Extraction

/-- A row, located and built with these budgets. -/
def extract (source : PositionedRead W) (format : ViewportFormat) (document : List Byte)
    (request : SortRequest) (locating building : List Nat) (w : W) (row : Nat) :
    Option (Extraction source format document request) :=
  match hspan : (records format document)[row]? with
  | none => none
  | some span =>
    match hkey : (extractKey source format request.mode row span request.column locating building
        w).1 with
    | .ok (some d) => some ⟨row, d, span, hspan, w, locating, building, hkey⟩
    | _ => none

/-- What the descriptors decide, or else the bytes of the keys. -/
def order (a b : Extraction source format document request) : Ordering :=
  (Comparison.new a.descriptor b.descriptor request (quoteByte format)).result document

theorem order_eq (hsource : source.Reads document)
    (a b : Extraction source format document request) :
    a.order b = rowOrder format document request a.row b.row :=
  compare_extracted hsource a.extracted b.extracted

theorem row_eq (hsource : source.Reads document) (a : Extraction source format document request) :
    a.descriptor.row = a.row := (a.extracted.describes hsource).row_eq

theorem transCmp (hsource : source.Reads document) :
    Std.TransCmp fun a b : Extraction source format document request => a.order b := by
  have horder : ∀ a b : Extraction source format document request, a.order b =
      (sortKey request.mode a.row (rowKey format document request.column a.row)).order
        request.direction
        (sortKey request.mode b.row (rowKey format document request.column b.row)) :=
    order_eq hsource
  exact
    { eq_swap := fun {a b} => by
        rw [horder, horder]
        exact Std.OrientedCmp.eq_swap
      isLE_trans := fun {a b c} hab hbc => by
        rw [horder] at hab hbc ⊢
        exact Std.TransCmp.isLE_trans hab hbc }

theorem distinct (hsource : source.Reads document)
    {extractions : List (Extraction source format document request)}
    (hrows : extractions.map row = List.range extractions.length) :
    extractions.Pairwise fun a b => a.order b ≠ .eq := by
  have hnodup : (extractions.map row).Nodup := by
    rw [hrows]
    exact List.nodup_range
  refine (List.pairwise_map.mp hnodup).imp fun {a b} hne heq => hne ?_
  rw [order_eq hsource] at heq
  exact order_eq_row heq

end Extraction

/-- The rows of a run file, as the maps take them from its descriptors. -/
def rowsOf (file : List (Extraction source format document request)) : List Nat :=
  file.map fun record => record.descriptor.row

/-- A finished sort shows every row once, in the order of the keys. -/
structure Shows (format : ViewportFormat) (document : List Byte) (request : SortRequest)
    (rows : List Nat) : Prop where
  perm : rows.Perm (List.range (records format document).length)
  sorted : rows.Pairwise fun r s => rowOrder format document request r s = .lt

/-- Whatever the budgets are, enough steps of a builder for so many rows make their map, and it is
the inverse of the order. -/
def Inverts (rows : List Nat) : Prop :=
  ∀ bucketRows bufferBytes builder,
    Inverse.Builder.new rows.length bucketRows bufferBytes = .ok builder →
    ∀ budgets calls inverse, rows.length < calls →
      let run := builder.build rows budgets calls inverse
      run.1 = .ok true ∧ ∀ rank row, rows[rank]? = some row ↔
        row < rows.length ∧ run.2.2.word (mapHeaderBytes + row * 8) = rank

theorem inverts_of_perm {rows : List Nat} (hperm : rows.Perm (List.range rows.length)) :
    Inverts rows := by
  intro bucketRows bufferBytes builder hnew budgets calls inverse hcalls run
  obtain ⟨hshape, hrecords, hcollected⟩ := Inverse.Builder.new_sound hnew
  obtain ⟨result, last, map, hrun, -, hresult⟩ :=
    Inverse.Builder.build_spec hshape hcollected hrecords.symm budgets calls inverse
  have hvalue : run = (result, last, map) := hrun
  rw [hvalue]
  obtain ⟨-, hbad⟩ | ⟨rfl, -, hmapped⟩ | ⟨-, hfew⟩ := hresult
  · exact absurd hperm hbad
  · have hword : ∀ rank row, rows[rank]? = some row →
        map.word (mapHeaderBytes + row * 8) = rank := fun rank row h =>
      hmapped (row, rank) (List.mem_zipIdx_iff_getElem?.mpr h)
    refine ⟨rfl, fun rank row => ⟨fun h => ⟨?_, hword rank row h⟩, fun ⟨hrow, h⟩ => ?_⟩⟩
    · exact List.mem_range.mp (hperm.mem_iff.mp (List.mem_of_getElem? h))
    · obtain ⟨found, hfound⟩ :=
        List.getElem?_of_mem (hperm.mem_iff.mpr (List.mem_range.mpr hrow))
      rw [← h, hword found row hfound]
      exact hfound
  · omega

/-- A sort of a document, whatever the budgets of the key machine, the capacity of a batch and the
number of runs that are merged at a time are, and whatever comparisons were suspended: no step
fails, and what is left when the passes are over shows every row once in the order of the keys,
and has an inverse. -/
theorem document_sorts (hsource : source.Reads document) (capacity mergeFanIn : Nat)
    (extractions alternate : List (Extraction source format document request))
    (hrows : extractions.map Extraction.row = List.range (records format document).length)
    (hcapacity : 0 < capacity) (hroom : alternate.length = capacity) (hfan : 2 ≤ mergeFanIn)
    (hlength : (records format document).length < u64Bound)
    (s : Batching (Extraction source format document request))
    (hs : Batching.Reaches Extraction.order (.new capacity extractions alternate) s) :
    (∀ c, ∃ s', Batching.step Extraction.order c s = .ok s') ∧
    (s.phase = .merging → ∀ p, Pass.Reaches Extraction.order
      (Pass.start mergeFanIn s.capacity s.runFile) p →
        (p.merging = true → ∀ c, ∃ p', Pass.mergeDisk Extraction.order c p = .ok p') ∧
        (p.merging = false →
          Shows format document request (rowsOf p.runFile) ∧ Inverts (rowsOf p.runFile))) := by
  have hcount : extractions.length = (records format document).length := by
    rw [← List.length_map (f := Extraction.row), hrows, List.length_range]
  have htrans : Std.TransCmp fun a b : Extraction source format document request => a.order b :=
    Extraction.transCmp hsource
  obtain ⟨hstep, hpasses⟩ := hs.sorts hcapacity hroom hfan (by rwa [hcount])
    (Extraction.distinct hsource (by rwa [hcount]))
  refine ⟨hstep, fun hphase p hp => ?_⟩
  obtain ⟨hpass, hdone⟩ := hpasses hphase p hp
  refine ⟨hpass, fun hm => ?_⟩
  obtain ⟨hsorted, hperm⟩ := hdone hm
  have hsame : rowsOf p.runFile = p.runFile.map Extraction.row :=
    List.map_congr_left fun a _ => a.row_eq hsource
  have hall : (rowsOf p.runFile).Perm (List.range (records format document).length) := by
    rw [hsame, ← hrows]
    exact hperm.map _
  refine ⟨⟨hall, ?_⟩, inverts_of_perm ?_⟩
  · rw [hsame]
    refine List.pairwise_map.mpr (hsorted.imp fun {a b} h => ?_)
    rw [← Extraction.order_eq hsource]
    exact h
  · rwa [hall.length_eq, List.length_range]

end Finished

/-- The source of the lines `a` and `b`. -/
def twoLines : PositionedRead Unit := .ofBytes [97, 10, 98, 10] (by decide)

def twoLinesExtractions :
    List (Extraction twoLines .lines [97, 10, 98, 10] ⟨0, .text, .descending⟩) :=
  (List.range 2).filterMap
    (Extraction.extract twoLines .lines _ _ (List.replicate 5 8) (List.replicate 5 8) ())

theorem twoLinesExtractions_rows : twoLinesExtractions.map Extraction.row =
    List.range (records .lines [97, 10, 98, 10]).length := by
  decide +kernel

/-- Two batches of one row each. -/
def twoLinesBatches :
    Batching (Extraction twoLines .lines [97, 10, 98, 10] ⟨0, .text, .descending⟩) :=
  Batching.batches Extraction.order 20
    (.new 1 twoLinesExtractions (twoLinesExtractions.take 1))

def twoLinesPasses :
    Pass (Extraction twoLines .lines [97, 10, 98, 10] ⟨0, .text, .descending⟩) :=
  Batching.passes Extraction.order 2 20 twoLinesBatches

theorem document_sorts_twoLines :
    Shows .lines [97, 10, 98, 10] ⟨0, .text, .descending⟩ (rowsOf twoLinesPasses.runFile) ∧
      Inverts (rowsOf twoLinesPasses.runFile) :=
  ((document_sorts (PositionedRead.ofBytes_steady [97, 10, 98, 10] (by decide)).toReads 1 2
    twoLinesExtractions (twoLinesExtractions.take 1) twoLinesExtractions_rows (by decide)
    (by decide +kernel) (by decide) (by decide +kernel) twoLinesBatches
    (Batching.reaches_batches 20 .start)).2 (by decide +kernel) _
      (Batching.reaches_passes 2 20 twoLinesBatches)).2 (by decide +kernel)

example : rowsOf twoLinesPasses.runFile = [1, 0] := by decide +kernel

end LeanRows.Sort
