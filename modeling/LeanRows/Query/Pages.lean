import LeanRows.Query.Runs

/-!
# Reading the hits of a query back

The page buffer is the only cache of hits: appends fill it while the query runs, and page
reads replace it from the scratch file. A read may fail between two entries.
-/

namespace LeanRows

set_option autoImplicit false

/-- The disk as a reader of the scratch file sees it, and what it reports at the file's end. -/
structure ScratchReader (W : Type) where
  read : W → Option IoError × W
  unexpectedEof : IoError

def ScratchReader.beside {S W : Type} (reader : ScratchReader W) : ScratchReader (S × W) where
  read p := ((reader.read p.2).1, p.1, (reader.read p.2).2)
  unexpectedEof := reader.unexpectedEof

structure QueryHitPage where
  firstHit : Nat
  hits : List QueryHit
deriving DecidableEq, Repr

def HitPageBuffer.view (page : HitPageBuffer) : QueryHitPage := ⟨page.firstHit, page.hits⟩

namespace ScratchHitStore

variable {W : Type}

/-- The offset of an entry is checked like every sum of `u64`s. -/
def readHit (reader : ScratchReader W) (store : ScratchHitStore) (index : Nat) :
    Exec W QueryError (Option QueryHit) := fun w =>
  if store.entries ≤ index then (.ok none, w)
  else if u64Bound ≤ hitOffset index then (.error .addressSpace, w)
  else
    match reader.read w with
    | (some error, w) => (.error (.io error), w)
    | (none, w) =>
      let bytes := ByteFile.readAt store.file (hitOffset index) queryHitEntryBytes
      if bytes.length < queryHitEntryBytes then (.error (.io reader.unexpectedEof), w)
      else
        match QueryHit.decode bytes with
        | .error error => (.error error, w)
        | .ok hit => (.ok (some hit), w)

theorem append_index {medium : ScratchMedium W} {store : ScratchHitStore} {hit : QueryHit}
    {w : W} {index : Nat} (h : (store.append medium hit w).1 = .ok (.stored index)) :
    index = store.entries ∧
      (store.append medium hit w).2.1.usedBytes = store.usedBytes + queryHitEntryBytes ∧
      store.usedBytes + queryHitEntryBytes < u64Bound := by
  unfold append at h ⊢
  cases hrequired : checkedAdd store.usedBytes queryHitEntryBytes with
  | none =>
    rw [hrequired] at h
    cases h
  | some required =>
    obtain ⟨hbound, rfl⟩ := checkedAdd_eq_some.mp hrequired
    rw [hrequired] at h
    dsimp only at h ⊢
    split at h
    · cases h
    rename_i hroom
    rw [if_neg hroom]
    rcases hwrite : medium.write w with ⟨_ | _, w'⟩
    · rw [hwrite] at h
      dsimp only at h ⊢
      cases hcount : checkedAdd store.entries 1 with
      | none =>
        rw [hcount] at h
        cases h
      | some entries =>
        rw [hcount] at h
        cases h
        exact ⟨rfl, rfl, hbound⟩
    · rw [hwrite] at h
      cases h

/-- A stored hit is read back unless the disk fails. -/
theorem Holds.readHit {hits : List QueryHit} {store : ScratchHitStore} (h : store.Holds hits)
    (hbound : store.usedBytes < u64Bound) (reader : ScratchReader W) (index : Nat) (w : W) :
    (∃ w', store.readHit reader index w = (.ok hits[index]?, w')) ∨
      ∃ error w', (reader.read w).1 = some error ∧
        store.readHit reader index w = (.error (.io error), w') := by
  unfold ScratchHitStore.readHit
  by_cases hlast : store.entries ≤ index
  · refine .inl ⟨w, ?_⟩
    rw [if_pos hlast, List.getElem?_eq_none (by rw [← h.entries]; exact hlast)]
  rw [if_neg hlast]
  have hlt : index < hits.length := by
    have := h.entries
    omega
  have hend := hitOffset_mono hlt
  rw [← h.used] at hend
  rw [if_neg (by omega)]
  rcases hread : reader.read w with ⟨_ | error, w'⟩
  · refine .inl ⟨w', ?_⟩
    dsimp only
    rw [h.content index _ (List.getElem?_eq_getElem hlt), if_neg (by simp),
      QueryHit.decode_encode (h.fits _ (List.getElem_mem hlt)), List.getElem?_eq_getElem hlt]
  · exact .inr ⟨error, w', rfl, rfl⟩

end ScratchHitStore

namespace QuerySession

variable {W : Type} {format : ViewportFormat}

def cachedHit (session : QuerySession format) (index : Nat) : Option QueryHit :=
  if index < session.page.firstHit then none
  else session.page.hits[index - session.page.firstHit]?

section Reading
variable (reader : ScratchReader W)

/-- The loop of `read_page`: `left` more hits from `firstHit + relative` on. -/
def readHits (firstHit : Nat) : Nat → Nat → QueryM format W Unit
  | 0, _ => pure ()
  | left + 1, relative => do
    match checkedAdd firstHit relative with
    | none => Exec.throw .addressSpace
    | some index =>
      let session ← Exec.get
      match ← Exec.inner (session.scratch.readHit reader index) with
      | none => Exec.throw .scratchCorrupt
      | some hit => do
        Exec.modify fun session => { session with
          page := { session.page with hits := session.page.hits ++ [hit] } }
        readHits firstHit left (relative + 1)

def readPage (firstHit : Nat) : QueryM format W QueryHitPage := do
  Exec.modify fun session => { session with
    page := { session.page with firstHit := firstHit, hits := [] } }
  let session ← Exec.get
  let count := min (session.scratch.entries - firstHit) session.page.capacity
  readHits reader firstHit count 0
  let session ← Exec.get
  pure session.page.view

def readHit (index : Nat) : QueryM format W (Option QueryHit) := do
  let session ← Exec.get
  if session.scratch.entries ≤ index then pure none
  else
    match session.cachedHit index with
    | some hit => pure (some hit)
    | none => do
      let first := index / session.page.capacity * session.page.capacity
      let _ ← readPage reader first
      let session ← Exec.get
      pure (session.cachedHit index)

end Reading

/-- What a caller of a session may do to its hits. -/
inductive HitCall where
  | advance (call : AdvanceCall)
  | readPage (firstHit : Nat)
  | readHit (index : Nat)

variable (medium : ScratchMedium W) (reader : ScratchReader W) (source : PositionedRead W)

/-- The session after a call, whether the call fails or not. -/
def HitCall.run (call : HitCall) (p : QuerySession format × W) : QuerySession format × W :=
  match call with
  | .advance call => (QuerySession.advance medium source call.maxWorkBytes call.polls p).2
  | .readPage firstHit => (QuerySession.readPage reader firstHit p).2
  | .readHit index => (QuerySession.readHit reader index p).2

def hitCalls (calls : List HitCall) (p : QuerySession format × W) : QuerySession format × W :=
  calls.foldl (fun p call => call.run medium reader source p) p

end QuerySession

/-- The page holds stored hits from its first one on. -/
structure HitPageBuffer.Shows (hits : List QueryHit) (capacity : Nat) (page : HitPageBuffer) :
    Prop where
  capacity_eq : page.capacity = capacity
  length_le : page.hits.length ≤ capacity
  isPrefix : page.hits <+: hits.drop page.firstHit

/-- A hit that is stored next is put behind the page's hits or starts a new page. -/
theorem HitPageBuffer.Shows.append {hits : List QueryHit} {capacity : Nat} {page : HitPageBuffer}
    (h : page.Shows hits capacity) (hcapacity : 0 < capacity) (hit : QueryHit) :
    (page.append hits.length hit).Shows (hits ++ [hit]) capacity := by
  have hfresh : HitPageBuffer.Shows (hits ++ [hit]) capacity
      { page with firstHit := hits.length, hits := [hit] } := by
    refine ⟨h.capacity_eq, hcapacity, ?_⟩
    rw [List.drop_left]
  unfold HitPageBuffer.append
  dsimp only
  split
  · exact hfresh
  rename_i hfollows
  simp only [Bool.or_eq_true, not_or, List.isEmpty_iff, Bool.not_eq_eq_eq_not, Bool.not_true,
    beq_eq_false_iff_ne, ne_eq, beq_iff_eq] at hfollows
  obtain ⟨⟨-, hindex⟩, hroom⟩ := hfollows
  obtain ⟨-, hindex⟩ := checkedAdd_eq_some.mp (Decidable.not_not.mp (by simpa using hindex))
  rw [h.capacity_eq] at hroom
  have hlength := h.length_le
  have hfirst : page.firstHit ≤ hits.length := by omega
  -- the page reaches up to the last stored hit
  have hall : page.hits = hits.drop page.firstHit := by
    apply h.isPrefix.eq_of_length
    rw [List.length_drop]
    omega
  refine ⟨h.capacity_eq, ?_, ?_⟩
  · rw [List.length_append, List.length_singleton]
    omega
  · rw [List.drop_append_of_le_length hfirst, ← hall]

namespace QuerySession

variable {W : Type} {format : ViewportFormat}

/-- The scratch file holds `hits`, and the page shows some of them. -/
structure Paged (capacity : Nat) (hits : List QueryHit) (session : QuerySession format) :
    Prop where
  store : session.scratch.Holds hits
  used_lt : session.scratch.usedBytes < u64Bound
  page : session.page.Shows hits capacity
  rows : ∀ record ∈ session.pending, record.row < u64Bound

/-- As `Paged`, with what has been stored behind `hits` since. -/
def Grown (capacity : Nat) (hits : List QueryHit) (p : QuerySession format × W) : Prop :=
  ∃ more, p.1.Paged capacity (hits ++ more)

variable {capacity : Nat} {hits : List QueryHit} {medium : ScratchMedium W}
  {reader : ScratchReader W} {source : PositionedRead W}

theorem appendHit_grown (hcapacity : 0 < capacity) {hit : QueryHit} (hrow : hit.row < u64Bound)
    (hstop : hit.span.stop < u64Bound) :
    Exec.Preserves (Grown capacity hits) (appendHit medium hit : QueryM format W _) := by
  apply Exec.AgreeOn.self
  rintro ⟨session, w⟩ ⟨more, h⟩
  have happended := ScratchHitStore.append_appended medium h.store ⟨hrow, hstop⟩ w
  have hindex := @ScratchHitStore.append_index W medium session.scratch hit w
  unfold appendHit
  dsimp only
  generalize session.scratch.append medium hit w = r at happended hindex ⊢
  cases happended with
  | stored index hwrite hstored =>
    obtain ⟨hnext, hused, hbound⟩ := hindex rfl
    refine ⟨more ++ [hit], ?_, ?_, ?_, h.rows⟩
    · rwa [List.append_assoc] at hstored
    · change _ = _ at hused
      exact hused ▸ hbound
    · have hpage := h.page.append hcapacity hit
      rw [List.append_assoc] at hpage
      change (session.page.append index hit).Shows _ _
      rw [hnext, h.store.entries]
      exact hpage
  | refused _ _ => exact ⟨more, h⟩
  | unaddressed _ => exact ⟨more, h⟩
  | failed hwrite hsame =>
    refine ⟨more, hsame, ?_, h.page, h.rows⟩
    rw [hsame.used, ← h.store.used]
    exact h.used_lt

/-- Nothing but an append touches the hits, whatever the source answers. -/
theorem grown_framed (hcapacity : 0 < capacity) :
    Framed source source medium (fun row => row < u64Bound)
      (Grown capacity hits : QuerySession format × W → Prop) (Grown capacity hits) := by
  have hensure : Exec.Preserves (Grown capacity hits)
      (ensureSourceUnchanged source : QueryM format W Unit) := by
    apply Exec.AgreeOn.self
    rintro ⟨session, w⟩ ⟨more, h⟩
    have hcases := ensureSourceUnchanged_ensured source session w
    generalize ensureSourceUnchanged source (session, w) = r at hcases
    cases hcases with
    | remembered _ => exact ⟨more, h⟩
    | lost _ => exact ⟨more, h.store, h.used_lt, h.page, h.rows⟩
    | changed _ _ _ => exact ⟨more, h.store, h.used_lt, h.page, h.rows⟩
    | unchanged _ _ _ => exact ⟨more, h⟩
  refine ⟨?_, ?_, fun _ h => h, fun _ h => h, .of_agreeOn hensure fun _ h => h, ?_, ?_⟩
  · rintro session next w _ _ hscratch hpage hrows ⟨more, h⟩
    refine ⟨more, ?_, ?_, ?_, hrows⟩
    · rw [hscratch]
      exact h.store
    · rw [hscratch]
      exact h.used_lt
    · rw [hpage]
      exact h.page
  · rintro session w ⟨more, h⟩
    exact h.rows
  · intro offset request
    have hread : Exec.Preserves (Grown capacity hits)
        (Exec.inner (source.read QueryError.io offset request) : QueryM format W _) :=
      .self fun p h => h
    refine .of_agreeOn (.bind hensure fun _ => .bind hread fun bytes => ?_) fun _ h => h
    split
    · refine .bind (.modify ?_) fun _ => .throw
      rintro session w ⟨more, h⟩
      exact ⟨more, h.store, h.used_lt, h.page, h.rows⟩
    · exact .bind hensure fun _ => .pure
  · intro hit hrow hstop
    exact appendHit_grown hcapacity hrow hstop

/-! ### Page reads -/

variable (reader)

/-- The session with the first `count` hits from `firstHit` on in its page. -/
def showing (session : QuerySession format) (hits : List QueryHit) (firstHit count : Nat) :
    QuerySession format :=
  { session with page := {
      session.page with firstHit := firstHit, hits := (hits.drop firstHit).take count } }

theorem Paged.showing {session : QuerySession format} (h : session.Paged capacity hits)
    {firstHit count : Nat} (hcount : count ≤ capacity) :
    (session.showing hits firstHit count).Paged capacity hits := by
  refine ⟨h.store, h.used_lt, ⟨h.page.capacity_eq, ?_, List.take_prefix _ _⟩, h.rows⟩
  exact (List.length_take_le _ _).trans hcount

theorem readHits_run {session : QuerySession format} (h : session.Paged capacity hits)
    (firstHit left relative : Nat) (hroom : relative + left ≤ capacity)
    (hlast : relative + left ≤ hits.length - firstHit) (w : W) :
    (∃ w', readHits reader firstHit left relative (session.showing hits firstHit relative, w) =
        (.ok (), session.showing hits firstHit (relative + left), w')) ∨
      ∃ error w' w'' count, count ≤ capacity ∧ (reader.read w').1 = some error ∧
        readHits reader firstHit left relative (session.showing hits firstHit relative, w) =
          (.error (.io error), session.showing hits firstHit count, w'') := by
  induction left generalizing relative w with
  | zero => exact .inl ⟨w, rfl⟩
  | succ left ih =>
    have hlt : firstHit + relative < hits.length := by omega
    have haddress : checkedAdd firstHit relative = some (firstHit + relative) := by
      refine checkedAdd_eq_some.mpr ⟨?_, rfl⟩
      have hused := h.store.used
      have hbound := h.used_lt
      simp only [ScratchHitStore.hitOffset, queryHitEntryBytes, queryScratchHeaderBytes] at hused
      omega
    have hnext : (session.showing hits firstHit relative).page.hits ++
        [hits[firstHit + relative]] = (hits.drop firstHit).take (relative + 1) := by
      change (hits.drop firstHit).take relative ++ _ = _
      rw [List.take_add_one, List.getElem?_drop, List.getElem?_eq_getElem hlt]
      rfl
    unfold readHits
    rw [haddress]
    dsimp only
    rw [Exec.run_get_bind]
    rcases h.store.readHit h.used_lt reader (firstHit + relative) w with
      ⟨w', hread⟩ | ⟨error, w', hfailed, hread⟩
    · have hinner : Exec.inner ((session.showing hits firstHit relative).scratch.readHit reader
          (firstHit + relative)) (session.showing hits firstHit relative, w) =
          (.ok (some hits[firstHit + relative]), session.showing hits firstHit relative, w') := by
        change (((session.scratch.readHit reader (firstHit + relative)) w).1, _,
          ((session.scratch.readHit reader (firstHit + relative)) w).2) = _
        rw [hread, List.getElem?_eq_getElem hlt]
      rw [Exec.run_bind_ok hinner]
      dsimp only
      rw [Exec.run_modify_bind, hnext]
      have hrest := ih (relative + 1) (by omega) (by omega) w'
      rw [Nat.add_assoc, Nat.add_comm 1] at hrest
      exact hrest
    · have hinner : Exec.inner ((session.showing hits firstHit relative).scratch.readHit reader
          (firstHit + relative)) (session.showing hits firstHit relative, w) =
          (.error (.io error), session.showing hits firstHit relative, w') := by
        change (((session.scratch.readHit reader (firstHit + relative)) w).1, _,
          ((session.scratch.readHit reader (firstHit + relative)) w).2) = _
        rw [hread]
      rw [Exec.run_bind_error hinner]
      exact .inr ⟨error, w, w', relative, by omega, hfailed, rfl⟩

/-- A page read shows the hits that are there, or the disk failed and it shows some of them. -/
theorem readPage_run {session : QuerySession format} (h : session.Paged capacity hits)
    (firstHit : Nat) (w : W) :
    (∃ w', readPage reader firstHit (session, w) =
        (.ok ⟨firstHit, (hits.drop firstHit).take capacity⟩,
          session.showing hits firstHit (min (hits.length - firstHit) capacity), w')) ∨
      ∃ error w' w'' count, count ≤ capacity ∧ (reader.read w').1 = some error ∧
        readPage reader firstHit (session, w) =
          (.error (.io error), session.showing hits firstHit count, w'') := by
  unfold readPage
  have hall : (hits.drop firstHit).take (min (hits.length - firstHit) capacity) =
      (hits.drop firstHit).take capacity := by
    rw [Nat.min_comm, ← List.take_take, ← List.length_drop, List.take_length]
  have hcleared : ({ session with page := { session.page with firstHit := firstHit, hits := [] } } :
      QuerySession format) = session.showing hits firstHit 0 := by
    rw [QuerySession.showing, List.take_zero]
  rw [Exec.run_modify_bind, hcleared, Exec.run_get_bind]
  change (∃ w', (readHits reader firstHit
      (min (session.scratch.entries - firstHit) session.page.capacity) 0 >>= _) _ = _) ∨
    ∃ error w' w'' count, count ≤ capacity ∧ (reader.read w').1 = some error ∧
      (readHits reader firstHit
        (min (session.scratch.entries - firstHit) session.page.capacity) 0 >>= _) _ = _
  rw [h.store.entries, h.page.capacity_eq]
  rcases readHits_run reader h firstHit (min (hits.length - firstHit) capacity) 0
    (by omega) (by omega) w with ⟨w', hread⟩ | ⟨error, w', w'', count, hcount, hfailed, hread⟩
  · rw [Nat.zero_add] at hread
    refine .inl ⟨w', ?_⟩
    rw [Exec.run_bind_ok hread, ← hall]
    rfl
  · exact .inr ⟨error, w', w'', count, hcount, hfailed, by rw [Exec.run_bind_error hread]⟩

theorem cachedHit_eq {session : QuerySession format} (h : session.Paged capacity hits)
    {index : Nat} {hit : QueryHit} (hcached : session.cachedHit index = some hit) :
    hits[index]? = some hit := by
  unfold cachedHit at hcached
  split at hcached
  · cases hcached
  obtain ⟨rest, hrest⟩ := h.page.isPrefix
  obtain ⟨hlt, -⟩ := List.getElem?_eq_some_iff.mp hcached
  rw [← List.getElem?_append_left hlt, hrest, List.getElem?_drop] at hcached
  rwa [Nat.add_sub_cancel' (by omega)] at hcached

theorem cachedHit_showing {session : QuerySession format} {firstHit count index : Nat}
    (hfirst : firstHit ≤ index) (hcount : index < firstHit + count) :
    (session.showing hits firstHit count).cachedHit index = hits[index]? := by
  unfold cachedHit
  change (if index < firstHit then none
    else ((hits.drop firstHit).take count)[index - firstHit]?) = _
  rw [if_neg (by omega), List.getElem?_take_of_lt (by omega), List.getElem?_drop,
    Nat.add_sub_cancel' hfirst]

/-- A hit is read if it is stored, from the page or through the page that it belongs to. -/
theorem readHit_run {session : QuerySession format} (h : session.Paged capacity hits)
    (hcapacity : 0 < capacity) (index : Nat) (w : W) :
    ((readHit reader index (session, w)).2.1.Paged capacity hits) ∧
      ((readHit reader index (session, w)).1 = .ok hits[index]? ∨
        ∃ error w', (reader.read w').1 = some error ∧
          (readHit reader index (session, w)).1 = .error (.io error)) := by
  unfold readHit
  rw [Exec.run_get_bind]
  by_cases hlast : session.scratch.entries ≤ index
  · rw [if_pos hlast]
    refine ⟨h, .inl ?_⟩
    rw [List.getElem?_eq_none (by rw [← h.store.entries]; exact hlast)]
    rfl
  rw [if_neg hlast]
  rw [h.store.entries] at hlast
  cases hcached : session.cachedHit index with
  | some hit => exact ⟨h, .inl (by rw [cachedHit_eq h hcached]; rfl)⟩
  | none =>
    dsimp only
    rw [h.page.capacity_eq]
    have hdiv := Nat.div_add_mod index capacity
    have hmod := Nat.mod_lt index hcapacity
    rw [Nat.mul_comm] at hdiv
    rcases readPage_run reader h (index / capacity * capacity) w with
      ⟨w', hread⟩ | ⟨error, w', w'', count, hcount, hfailed, hread⟩
    · rw [Exec.run_bind_ok hread, Exec.run_get_bind]
      refine ⟨h.showing (Nat.min_le_right _ _), .inl ?_⟩
      exact congrArg Except.ok (cachedHit_showing (by omega) (by omega))
    · rw [Exec.run_bind_error hread]
      exact ⟨h.showing hcount, .inr ⟨error, w', hfailed, rfl⟩⟩

/-! ### Runs -/

variable (medium) (source)

theorem HitCall.run_grown (hcapacity : 0 < capacity) (call : HitCall)
    {p : QuerySession format × W} (h : Grown capacity hits p) :
    Grown capacity hits (call.run medium reader source p) := by
  obtain ⟨session, w⟩ := p
  cases call with
  | advance call =>
    exact (((grown_framed hcapacity).advance call.maxWorkBytes call.polls).agreeOn
      (session, w) h).2
  | readPage firstHit =>
    obtain ⟨more, h⟩ := h
    refine ⟨more, ?_⟩
    change ((QuerySession.readPage reader firstHit (session, w)).2.1).Paged _ _
    rcases readPage_run reader h firstHit w with
      ⟨w', hread⟩ | ⟨error, w', w'', count, hcount, -, hread⟩
    · rw [hread]
      exact h.showing (Nat.min_le_right _ _)
    · rw [hread]
      exact h.showing hcount
  | readHit index =>
    obtain ⟨more, h⟩ := h
    exact ⟨more, (readHit_run reader h hcapacity index w).1⟩

theorem hitCalls_grown (hcapacity : 0 < capacity) (calls : List HitCall)
    {p : QuerySession format × W} (h : Grown capacity hits p) :
    Grown capacity hits (hitCalls medium reader source calls p) := by
  unfold hitCalls
  induction calls generalizing p with
  | nil => exact h
  | cons call calls ih => exact ih (call.run_grown medium reader source hcapacity h)

theorem new_paged {literal : Literal} {config : QuerySessionConfig} {owner : List Byte}
    (howner : owner.length = 16) {session : QuerySession format} {w w' : W}
    (hnew : new source format literal config owner w = (.ok session, w')) :
    session.Paged config.pageCapacity [] := by
  rw [new] at hnew
  rcases hrun : source.capture QueryError.io w with ⟨error | snapshot, w₁⟩
  · rw [Exec.run_bind_error hrun] at hnew
    cases hnew
  rw [Exec.run_bind_ok hrun] at hnew
  cases hnew
  refine ⟨ScratchHitStore.create_holds howner config.header_le_quota, ?_,
    ⟨rfl, Nat.zero_le _, List.prefix_refl _⟩, ?_⟩
  · change queryScratchHeaderBytes < u64Bound
    decide
  · rintro record ⟨⟩

/-- Whatever has been called in whatever order, the page shows stored hits, reads return
stored hits, and what is stored stays. -/
theorem hit_pages_coherent {literal : Literal} {config : QuerySessionConfig} {owner : List Byte}
    (howner : owner.length = 16) {opened : QuerySession format} {w w' : W}
    (hnew : new source format literal config owner w = (.ok opened, w'))
    (calls : List HitCall) :
    let p := hitCalls medium reader source calls (opened, w')
    ∃ hits : List QueryHit,
      p.1.scratch.storedHits = hits.map .ok ∧ p.1.scratch.entries = hits.length ∧
      p.1.page.hits <+: hits.drop p.1.page.firstHit ∧
      p.1.page.hits.length ≤ config.pageCapacity ∧
      (∀ i w, (readPage reader i (p.1, w)).1 =
          .ok ⟨i, (hits.drop i).take config.pageCapacity⟩ ∨
        ∃ error w', (reader.read w').1 = some error ∧
          (readPage reader i (p.1, w)).1 = .error (.io error)) ∧
      (∀ j w, (readHit reader j (p.1, w)).1 = .ok hits[j]? ∨
        ∃ error w', (reader.read w').1 = some error ∧
          (readHit reader j (p.1, w)).1 = .error (.io error)) ∧
      ∀ later, ∃ more,
        (hitCalls medium reader source later p).1.scratch.storedHits = (hits ++ more).map .ok := by
  intro p
  have hcapacity := config.pageCapacity_pos
  have hstart : Grown config.pageCapacity [] (opened, w') := ⟨[], new_paged source howner hnew⟩
  obtain ⟨hits, h⟩ := hitCalls_grown medium reader source hcapacity calls hstart
  rw [List.nil_append] at h
  refine ⟨hits, h.store.storedHits_eq, h.store.entries, h.page.isPrefix, h.page.length_le,
    ?_, ?_, ?_⟩
  · intro i w
    rcases readPage_run reader h i w with
      ⟨w', hread⟩ | ⟨error, w', w'', count, -, hfailed, hread⟩
    · exact .inl (by rw [hread])
    · exact .inr ⟨error, w', hfailed, by rw [hread]⟩
  · intro j w
    exact (readHit_run reader h hcapacity j w).2
  · intro later
    have hnow : Grown config.pageCapacity hits p := ⟨[], by rwa [List.append_nil]⟩
    obtain ⟨more, hmore⟩ := hitCalls_grown medium reader source hcapacity later hnow
    exact ⟨more, hmore.store.storedHits_eq⟩

/-- Three hits and a page of two that was read past the last hit. -/
theorem hit_pages_coherent_three :
    let source := PositionedRead.ofBytesIn Nat [97, 97, 97] (by decide)
    let reader : ScratchReader Nat := ⟨fun w => (none, w + 1), .os 38⟩
    ∃ p : QuerySession .lines × Nat,
      p = hitCalls (failingDisk []) reader source [.advance (uninterrupted 8), .readPage 9]
        (smallSession [97, 97, 97] (by decide) 200 (by decide), 0) ∧
      p.1.scratch.entries = 3 ∧ p.1.page = ⟨2, 9, []⟩ ∧
      ∃ hits : List QueryHit, p.1.scratch.storedHits = hits.map .ok ∧
        (readHit reader 2 (p.1, 0)).1 = .ok hits[2]? := by
  intro source reader
  have hnew := smallSession_new Nat 0 [97, 97, 97] (by decide) 200 (by decide)
  have hcoherent := hit_pages_coherent (failingDisk []) reader source
    List.length_replicate hnew [.advance (uninterrupted 8), .readPage 9]
  refine ⟨_, rfl, by decide +kernel, by decide +kernel, ?_⟩
  obtain ⟨hits, hstored, -, -, -, -, hhit, -⟩ := hcoherent
  refine ⟨hits, hstored, ?_⟩
  rcases hhit 2 0 with hread | ⟨error, w', hfailed, -⟩
  · exact hread
  · cases hfailed

end QuerySession

end LeanRows
