import LeanRows.Engine.Document
import LeanRows.Query.Frames

/-!
# The source of a query

A query reads through the block of its source. Until a read fails the block holds what the
document has there, and a read that fails ends the query: so a session meets the document's bytes
only, although the block is wrong behind a refill that fails.
-/

namespace LeanRows.DocumentQuerySource

set_option autoImplicit false

variable {W : Type} {self : DocumentQuerySource W} {document : List Byte}

/-- The block holds the bytes of the document. -/
def Holds (document : List Byte) (p : QuerySourceCells × W) : Prop :=
  p.1.readCache.Holds document

instance : DecidablePred (Holds (W := W) document) := fun p =>
  inferInstanceAs (Decidable (p.1.readCache.loaded → p.1.readCache.valid ≤
    p.1.readCache.bytes.length ∧ p.1.readCache.bytes.take p.1.readCache.valid <+:
      document.drop p.1.readCache.start))

theorem new_holds (w : W) : Holds document (.new, w) := QueryReadCache.new_holds

theorem rejectChange_readCache (change : SourceChange) (actualSize : Nat)
    (p : QuerySourceCells × W) :
    (self.rejectChange change actualSize p).2.1.readCache = p.1.readCache := by
  unfold rejectChange
  split <;> rfl

/-- The check of the handle leaves the block alone, and a size it answers is the document's. -/
theorem verifyHandle_spec (p : QuerySourceCells × W) :
    (self.verifyHandle p).2.1.readCache = p.1.readCache ∧
      ∀ fingerprint, (self.verifyHandle p).1 = .ok fingerprint →
        fingerprint = self.sourceSnapshot ∨ (self.source.fingerprint p.2).1 = .ok fingerprint := by
  obtain ⟨cells, w⟩ := p
  simp only [verifyHandle, Exec.run_get_bind]
  split
  · exact ⟨rfl, fun _ h => by cases h⟩
  split
  · refine ⟨rfl, fun _ h => ?_⟩
    cases h
    exact .inl rfl
  rcases hrun : self.source.fingerprint w with ⟨error | handle, w'⟩
  · have hfails : Exec.inner self.source.fingerprint (cells, w) = (.error error, cells, w') := by
      simp only [Exec.inner, hrun]
    rw [Exec.run_bind_error hfails]
    exact ⟨rfl, fun _ h => by cases h⟩
  · have hreads : Exec.inner self.source.fingerprint (cells, w) = (.ok handle, cells, w') := by
      simp only [Exec.inner, hrun]
    rw [Exec.run_bind_ok hreads]
    have hcache : (self.rejectChange (self.sourceSnapshot.compare handle) handle.size
        (cells, w')).2.1.readCache = cells.readCache := rejectChange_readCache _ _ _
    rcases hreject : self.rejectChange (self.sourceSnapshot.compare handle) handle.size
      (cells, w') with ⟨error | ⟨⟩, q⟩
    · rw [hreject] at hcache
      rw [Exec.run_bind_error hreject]
      exact ⟨hcache, fun _ h => by cases h⟩
    · rw [hreject] at hcache
      rw [Exec.run_bind_ok hreject]
      refine ⟨hcache, fun _ h => ?_⟩
      cases h
      exact .inr rfl

variable (hsource : self.source.Reads document)
  (hsize : self.sourceSnapshot.size = document.length)
include hsource

/-- As long as its calls come back, the block stays right. -/
theorem staysIn (medium : ScratchMedium W) :
    QuerySession.StaysIn self.positionedRead medium.beside (Holds document) where
  fingerprint p current hholds _ := by
    unfold Holds
    rw [show (self.positionedRead.fingerprint p).2.1.readCache = p.1.readCache from
      (verifyHandle_spec p).1]
    exact hholds
  read p offset len bytes hholds hok := by
    have hread := @QueryReadCache.readAt_ok W document self.source p.1.readCache hsource hholds
      offset len p.2
    unfold positionedRead at hok ⊢
    dsimp only at hok ⊢
    cases hrun : (p.1.readCache.readAt self.source offset len p.2).1 with
    | error error =>
      rw [hrun] at hok
      cases hok
    | ok bytes => exact (hread hrun).2
  write p hholds := hholds

include hsize

/-- What a session meets that calls the source while the block is right. -/
theorem guarded_reads : (self.positionedRead.guarded (Holds document)).Reads document := by
  refine PositionedRead.guarded_reads (fun p fingerprint _ hok => ?_)
    fun p offset len bytes hholds hok => ?_
  · rcases (verifyHandle_spec p).2 fingerprint hok with rfl | hhandle
    · exact hsize
    · exact hsource.size p.2 fingerprint hhandle
  · unfold positionedRead at hok
    dsimp only at hok
    cases hrun : (p.1.readCache.readAt self.source offset len p.2).1 with
    | error error =>
      rw [hrun] at hok
      cases hok
    | ok bytes =>
      rw [hrun] at hok
      cases hok
      exact (QueryReadCache.readAt_ok hsource hholds hrun).1

end LeanRows.DocumentQuerySource
