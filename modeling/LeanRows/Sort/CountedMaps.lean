import LeanRows.Sort.Inverse

/-!
# What the session counts of its maps

The inverse builder of the session is the builder of the pairs, of which only the sizes are left:
where the files take what is written, every action of the one is the action of the other.
-/

set_option autoImplicit false

namespace LeanRows.Sort

theorem getD_map_range {f : Nat → Nat} {n k : Nat} (h : k < n) :
    ((List.range n).map f).getD k 0 = f k := by
  rw [List.getD_eq_getElem _ _ (by simpa using h), List.getElem_map, List.getElem_range]

theorem set_map_range {β : Type} (f : Nat → β) (n k : Nat) (b : β) :
    ((List.range n).map f).set k b = (List.range n).map (Function.update f k b) := by
  refine List.ext_getElem (by simp) fun i h h' => ?_
  rw [List.getElem_set, List.getElem_map, List.getElem_map, List.getElem_range]
  by_cases hk : k = i
  · rw [if_pos hk, hk, Function.update_self]
  · rw [if_neg hk, Function.update_of_ne (Ne.symm hk)]

/-! ## What is not counted -/

namespace SortSession

/-- What does not depend on a file stays when it is written. -/
theorem onFile_keeps (P : SortSession → Prop) {file : SortSession → Option DiskFile}
    {put : DiskFile → SortSession → SortSession} (hput : ∀ f s, P s → P (put f s))
    (action : DiskFileM Unit) :
    Exec.Triple (fun p => P p.1) (onFile file put action) (fun _ p => P p.1)
      fun _ _ => True := by
  rintro ⟨s, r⟩ hs
  unfold onFile
  cases file s with
  | none => trivial
  | some f =>
    dsimp only
    generalize action (f, r) = result
    obtain ⟨e | a, f', r'⟩ := result
    · trivial
    · exact hput f' s hs

theorem inner_keeps {β : Type} (P : SortSession → Prop) (x : Exec SortResources SortError β) :
    Exec.Triple (fun p => P p.1) (Exec.inner x) (fun _ p => P p.1) fun _ _ => True := by
  refine .inner fun s r hs => ?_
  rcases x r with ⟨e | b, r'⟩
  · trivial
  · exact hs

end SortSession

/-! ## The inverse -/

namespace Inverse.Builder

variable (pairs : DiskFile) (memory : Reservation) {builder : Builder}

/-- The builder of the session. -/
def counted (builder : Builder) : InverseBuilder :=
  ⟨builder.records, builder.bucketRows, builder.buckets, builder.bufferBytes, pairs,
    (List.range builder.buckets).map builder.filled,
    (List.range builder.buckets).map builder.written, builder.bucket, builder.read, memory⟩

theorem filled_update {builder' : Builder} {bucket : Nat} {buffer : List (Nat × Nat)}
    (h : builder'.buffer = Function.update builder.buffer bucket buffer) :
    builder'.filled = Function.update builder.filled bucket (pairBytes * buffer.length) := by
  funext other
  rw [filled, h]
  by_cases hother : other = bucket
  · rw [hother, Function.update_self, Function.update_self]
  · rw [Function.update_of_ne hother, Function.update_of_ne hother, filled]

theorem flush_counted {bucket : Nat} (hbucket : bucket < builder.buckets) :
    InverseBuilder.flush bucket (.ok ()) (builder.counted pairs memory) =
      (builder.flush bucket).map (counted pairs memory) := by
  have hfilled : (builder.counted pairs memory).filled.getD bucket 0 = builder.filled bucket :=
    getD_map_range hbucket
  have hwritten : (builder.counted pairs memory).written.getD bucket 0 = builder.written bucket :=
    getD_map_range hbucket
  have hlen : (builder.counted pairs memory).bucketLen bucket = builder.bucketLen bucket := rfl
  unfold InverseBuilder.flush Builder.flush
  rw [hfilled, hwritten, hlen]
  dsimp only
  by_cases hnone : builder.filled bucket = 0
  · rw [if_pos hnone, if_pos hnone]
    rfl
  rw [if_neg hnone, if_neg hnone]
  by_cases hover : builder.bucketLen bucket * pairBytes <
      builder.written bucket + builder.filled bucket
  · rw [if_pos hover, if_pos hover]
    rfl
  · rw [if_neg hover, if_neg hover]
    have hempty : (builder.flushed bucket).filled = Function.update builder.filled bucket 0 := by
      have hbuffer : (builder.flushed bucket).buffer = Function.update builder.buffer bucket [] :=
        rfl
      rw [filled_update hbuffer, List.length_nil, Nat.mul_zero]
    have hflushed : (builder.flushed bucket).counted pairs memory =
      { builder.counted pairs memory with
        written := (builder.counted pairs memory).written.set bucket
          (builder.written bucket + builder.filled bucket)
        filled := (builder.counted pairs memory).filled.set bucket 0 } := by
      simp only [counted, set_map_range, hempty]
      rfl
    exact congrArg Except.ok hflushed.symm

/-- A pair more in the buffer of its bucket. -/
def buffered (row rank : Nat) (builder : Builder) : Builder :=
  { builder with
    buffer := Function.update builder.buffer (row / builder.bucketRows)
      (builder.buffer (row / builder.bucketRows) ++ [(row, rank)]) }

theorem buffered_counted {row rank : Nat} (hbucket : row / builder.bucketRows < builder.buckets) :
    (builder.buffered row rank).counted pairs memory =
      { builder.counted pairs memory with
        filled := (builder.counted pairs memory).filled.set (row / builder.bucketRows)
          ((builder.counted pairs memory).filled.getD (row / builder.bucketRows) 0 +
            pairBytes) } := by
  have hget : (builder.counted pairs memory).filled.getD (row / builder.bucketRows) 0 =
      builder.filled (row / builder.bucketRows) := getD_map_range hbucket
  have hlonger : (builder.buffered row rank).filled = Function.update builder.filled
      (row / builder.bucketRows) (builder.filled (row / builder.bucketRows) + pairBytes) := by
    rw [filled_update rfl, List.length_append, List.length_singleton, Nat.mul_succ, ← filled]
  rw [hget]
  simp only [counted, set_map_range, hlonger]
  rfl

theorem push_counted (hshape : builder.Sound) (row rank : Nat) :
    InverseBuilder.push row rank (.ok ()) (builder.counted pairs memory) =
      (builder.push row rank).map (counted pairs memory) := by
  have hdata : builder.push row rank =
      if builder.records ≤ row ∨ builder.records ≤ rank then .error .invalidScratch
      else if (builder.buffered row rank).filled (row / builder.bucketRows) = builder.bufferBytes
        then (builder.buffered row rank).flush (row / builder.bucketRows)
      else .ok (builder.buffered row rank) := rfl
  by_cases hout : builder.records ≤ row ∨ builder.records ≤ rank
  · rw [hdata, if_pos hout]
    exact if_pos hout
  have hbucket : row / builder.bucketRows < builder.buckets :=
    Shape.div_lt_buckets hshape (by omega)
  have hfilled :
      ((builder.buffered row rank).counted pairs memory).filled.getD (row / builder.bucketRows) 0 =
        (builder.buffered row rank).filled (row / builder.bucketRows) := getD_map_range hbucket
  have hsession : InverseBuilder.push row rank (.ok ()) (builder.counted pairs memory) =
      if ((builder.buffered row rank).counted pairs memory).filled.getD
        (row / builder.bucketRows) 0 = builder.bufferBytes
      then InverseBuilder.flush (row / builder.bucketRows) (.ok ())
        ((builder.buffered row rank).counted pairs memory)
      else .ok ((builder.buffered row rank).counted pairs memory) := by
    rw [buffered_counted pairs memory hbucket]
    exact if_neg hout
  rw [hsession, hdata, if_neg hout, hfilled]
  by_cases hfull : (builder.buffered row rank).filled (row / builder.bucketRows) =
      builder.bufferBytes
  · rw [if_pos hfull, if_pos hfull]
    exact flush_counted pairs memory hbucket
  · rw [if_neg hfull, if_neg hfull]
    rfl

/-- Flushing keeps what the builder is made for. -/
theorem flush_toShape {bucket : Nat} {builder' : Builder}
    (h : builder.flush bucket = .ok builder') : builder'.toShape = builder.toShape := by
  unfold flush at h
  dsimp only at h
  split_ifs at h
  · cases h
    rfl
  · cases h
    rfl

theorem finishFrom_counted (count bucket : Nat) (h : bucket + count ≤ builder.buckets) :
    InverseBuilder.finishFrom (fun _ => .ok ()) count bucket (builder.counted pairs memory) =
      (builder.finishFrom count bucket).1.map fun _ =>
        (builder.finishFrom count bucket).2.counted pairs memory := by
  induction count generalizing bucket builder with
  | zero => rfl
  | succ count ih =>
    unfold InverseBuilder.finishFrom finishFrom
    rw [flush_counted pairs memory (by omega)]
    cases hflush : builder.flush bucket with
    | error e => rfl
    | ok builder' =>
      have hshape := flush_toShape hflush
      have hwritten : (builder'.counted pairs memory).written.getD bucket 0 =
          builder'.written bucket := getD_map_range (by rw [hshape]; omega)
      have hlen : (builder'.counted pairs memory).bucketLen bucket = builder'.bucketLen bucket :=
        rfl
      simp only [Except.map]
      rw [hwritten, hlen]
      by_cases hfull : builder'.written bucket ≠ builder'.bucketLen bucket * pairBytes
      · rw [if_pos hfull, if_pos hfull]
      · rw [if_neg hfull, if_neg hfull]
        exact ih (bucket + 1) (by rw [hshape]; omega)

theorem finishCollecting_counted :
    InverseBuilder.finishCollecting (fun _ => .ok ()) (builder.counted pairs memory) =
      builder.finishCollecting.1.map fun _ => builder.finishCollecting.2.counted pairs memory :=
  finishFrom_counted pairs memory builder.buckets 0 (Nat.le_of_eq (Nat.zero_add _))

/-- What is placed is for the session an answer. -/
theorem place_counted (inverse : WordFile) (budget : Nat) :
    (builder.counted pairs memory).place ((builder.place inverse budget).1.map fun _ => ()) =
      (builder.place inverse budget).1.map fun done =>
        (done, (builder.place inverse budget).2.1.counted pairs memory) := by
  unfold InverseBuilder.place place
  by_cases hdone : builder.bucket = builder.buckets
  · rw [if_pos hdone]
    exact if_pos hdone
  rw [if_neg hdone]
  refine (if_neg hdone).trans ?_
  dsimp only
  generalize placePairs _ _ _ _ = placed
  cases placed with
  | error e => rfl
  | ok ranks =>
    simp only [Except.map]
    generalize hcount : builder.counted pairs memory = session
    have hlen : session.bucketLen session.bucket = builder.bucketLen builder.bucket := by
      rw [← hcount]
      rfl
    have hread : session.read = builder.read := by
      rw [← hcount]
      rfl
    rw [hlen, hread]
    by_cases hend : builder.read +
        min (builder.bucketLen builder.bucket * pairBytes - builder.read) chunkBytes =
          builder.bucketLen builder.bucket * pairBytes
    · simp only [hend, if_true]
      rw [← hcount]
      rfl
    · simp only [hend, if_false]
      rw [← hcount]
      rfl

/-! ### The maps of the session -/

/-- A session at its maps with this builder. -/
def Counts (builder : Builder) (s : SortSession) : Prop :=
  ∃ pairs memory, s.inverseBuilder = some (builder.counted pairs memory)

variable {c : Choice} {s : SortSession}

/-- An action of the builder in the session does what it does with the pairs. -/
theorem onBuilder_counts {action : InverseBuilder → Except SortError InverseBuilder}
    {result : Except SortError Builder} (haction : ∀ pairs memory,
      action (builder.counted pairs memory) = result.map (counted pairs memory)) :
    Exec.Triple (fun p => builder.Counts p.1) (SortSession.onBuilder action)
      (fun _ p => ∃ builder', result = .ok builder' ∧ builder'.Counts p.1) fun _ _ => True := by
  unfold SortSession.onBuilder
  refine .get_bind fun s => ?_
  rintro p ⟨rfl, pairs, memory, hheld⟩
  rw [hheld]
  dsimp only
  rw [haction pairs memory]
  cases result with
  | error e => trivial
  | ok builder' => exact ⟨builder', rfl, pairs, memory, rfl⟩

theorem Counts.withOrder (file : DiskFile) (s : SortSession) (h : builder.Counts s) :
    builder.Counts { s with order := some file } := h

/-- A record of the run file is pushed. -/
theorem buildMaps_push (hshape : builder.Sound) (hwritten : c.os 2 = .ok ())
    (hmore : s.inverseAt ≠ s.records) :
    Exec.Triple (fun p => p.1 = s ∧ builder.Counts p.1) (SortSession.buildMaps c)
      (fun _ p => ∃ builder', builder.push c.row s.inverseAt = .ok builder' ∧
        builder'.Counts p.1) fun _ _ => True := by
  unfold SortSession.buildMaps
  refine .get_bind fun s' => ?_
  rintro p ⟨rfl, rfl, hcounts⟩
  rw [if_neg hmore, hwritten]
  refine (Exec.Triple.ofExcept_bind (fun _ _ => .bind (SortSession.onFile_keeps builder.Counts
    Counts.withOrder _) fun _ => .bind (onBuilder_counts fun pairs memory =>
      push_counted pairs memory hshape c.row p.1.inverseAt) fun _ => .modify fun s r h => h)
    fun _ _ _ _ => trivial : Exec.Triple (fun q => builder.Counts q.1) _ _ _) p hcounts

/-- The last pairs are written, and the run file goes. -/
theorem buildMaps_finish (hwritten : ∀ call, c.os call = .ok ())
    (hend : s.inverseAt = s.records) (hrun : s.runFile.isSome = true) :
    Exec.Triple (fun p => p.1 = s ∧ builder.Counts p.1) (SortSession.buildMaps c)
      (fun _ p => builder.finishCollecting.1 = .ok () ∧ builder.finishCollecting.2.Counts p.1)
      fun _ _ => True := by
  unfold SortSession.buildMaps
  refine .get_bind fun s' => ?_
  rintro p ⟨rfl, rfl, hcounts⟩
  rw [if_pos hend, if_pos hrun]
  have hos : (fun bucket => c.os (bucket + 1)) = fun _ => Except.ok () :=
    funext fun bucket => hwritten (bucket + 1)
  rw [hos]
  have haction : ∀ pairs memory,
      InverseBuilder.finishCollecting (fun _ => .ok ()) (builder.counted pairs memory) =
        (builder.finishCollecting.1.map fun _ => builder.finishCollecting.2).map
          (counted pairs memory) := by
    intro pairs memory
    rw [finishCollecting_counted]
    cases builder.finishCollecting.1 <;> rfl
  let Finished (s : SortSession) : Prop :=
    builder.finishCollecting.1 = .ok () ∧ builder.finishCollecting.2.Counts s
  have hfinished : ∀ s, (∃ builder', (builder.finishCollecting.1.map fun _ =>
      builder.finishCollecting.2) = .ok builder' ∧ builder'.Counts s) → Finished s := by
    rintro s ⟨builder', hok, hcounts⟩
    dsimp only [Finished]
    cases hfirst : builder.finishCollecting.1 with
    | error e =>
      rw [hfirst] at hok
      cases hok
    | ok _ =>
      rw [hfirst] at hok
      cases hok
      exact ⟨rfl, hcounts⟩
  have hkeep : ∀ (f : DiskFile) (s : SortSession), Finished s →
      Finished { s with order := some f } := fun _ _ h => h
  refine (Exec.Triple.bind ((onBuilder_counts haction).post_mono fun _ q => hfinished q.1) fun _ =>
    .bind (SortSession.onFile_keeps Finished hkeep _) fun _ p hp => hp :
      Exec.Triple (fun q => builder.Counts q.1) _ _ _) p hcounts

/-- A chunk of pairs is placed. -/
theorem buildMaps_place {inverse : WordFile} {budget : Nat}
    (hplaced : c.placed.mapError Fault.error = (builder.place inverse budget).1.map fun _ => ())
    (hend : s.inverseAt = s.records) (hrun : s.runFile.isSome = false) :
    Exec.Triple (fun p => p.1 = s ∧ builder.Counts p.1) (SortSession.buildMaps c)
      (fun _ p => ∃ done, (builder.place inverse budget).1 = .ok done ∧
        if done then p.1.phase = .complete
        else (builder.place inverse budget).2.1.Counts p.1) fun _ _ => True := by
  unfold SortSession.buildMaps
  refine .get_bind fun s' => ?_
  rintro p ⟨rfl, rfl, pairs, memory, hheld⟩
  rw [if_pos hend, if_neg (by rw [hrun]; exact Bool.false_ne_true), hheld]
  dsimp only
  rw [hplaced, place_counted pairs memory]
  cases (builder.place inverse budget).1 with
  | error e => trivial
  | ok done =>
    cases done with
    | true => exact ⟨true, rfl, rfl⟩
    | false => exact ⟨false, rfl, pairs, memory, rfl⟩

end Inverse.Builder

end LeanRows.Sort
