import LeanRows.Worker.Markers

/-!
# Recovery of the query cache

Every action of every worker, and the end of a process at any time, keeps what holds of the
directory. So a recovery removes no file of hits of a worker that is in use, and leaves none of
those that ended processes have left.
-/

namespace LeanRows.QueryCache

set_option autoImplicit false

namespace System

variable {system : System} {worker : WorkerId}

/-! ## Every action -/

/-- The worker goes on, and the directory stays. -/
theorem Inv.goOn (h : system.Inv) {phase phase' : Phase} (hphase : system.phase worker = phase)
    (hown : phase'.own = phase.own) (hheld : phase'.held = phase.held)
    (hstartup : phase'.startup = true → phase.startup = true) (hnew : phase' ≠ .new)
    (hnext : (system.move worker (phase', system.directory)).Here worker phase') :
    (system.move worker (phase', system.directory)).Inv := by
  subst hphase
  exact h.move (h.same hown hheld hstartup hnew) hnext

theorem Covers.move {due : List FileName} {live : Bool} (h : system.Covers worker due live)
    (result : Phase × Directory) : (system.move worker result).Covers worker due live := by
  rcases h with hlive | hdue
  · exact .inl hlive
  · refine .inr fun other hother marker hmarker => hdue other hother marker ?_
    have hphase : (system.move worker result).phase other = system.phase other :=
      Function.update_of_ne hother ..
    rwa [hphase] at hmarker

/-- A marker that another has open is there, and open. -/
theorem Covers.without {due : List FileName} {live : Bool} {name : FileName}
    (h : system.Covers worker (name :: due) live)
    (hname : ∀ other, other ≠ worker → (system.phase other).own ≠ some name) :
    system.Covers worker due live := by
  rcases h with hlive | hdue
  · exact .inl hlive
  · refine .inr fun other hother marker hmarker => ?_
    rcases List.mem_cons.mp (hdue other hother marker hmarker) with rfl | hin
    · exact absurd hmarker (hname other hother)
    · exact hin

theorem Covers.visit {due : List FileName} {live : Bool} (h : system.Covers worker due live)
    (name : FileName) : system.Covers worker (name :: due.filter (· ≠ name)) live := by
  rcases h with hlive | hdue
  · exact .inl hlive
  · refine .inr fun other hother marker hmarker => ?_
    by_cases hname : marker = name
    · exact hname ▸ List.mem_cons_self
    · exact List.mem_cons_of_mem _ (List.mem_filter.mpr
        ⟨hdue other hother marker hmarker, by simpa⟩)

theorem Inv.own_there (h : system.Inv) {other : WorkerId} {name : FileName}
    (hname : system.directory.files name = none) : (system.phase other).own ≠ some name := by
  intro hown
  obtain ⟨-, file, hfile, -⟩ := h.own other name hown
  rw [hname] at hfile
  cases hfile

theorem Inv.own_open (h : system.Inv) {other : WorkerId} {name : FileName} {file : File}
    (hfile : system.directory.files name = some file) (hfree : file.handle = none) :
    (system.phase other).own ≠ some name := by
  intro hown
  obtain ⟨-, file', hfile', hopen, -⟩ := h.own other name hown
  rw [hfile] at hfile'
  cases hfile'
  rw [hfree] at hopen
  cases hopen

/-- Nobody has a file of hits open without sharing. -/
theorem Inv.hits_free (h : system.Inv) {name : FileName} (hname : parseOwnerFromName name ≠ none) :
    ∀ file, system.directory.files name = some file → file.handle = none := by
  intro file hfile
  cases hopen : file.handle with
  | none => rfl
  | some other => exact absurd (parseOwner_marker (h.handle name file other hfile hopen).1) hname

theorem Left.skip {directory : Directory} {due : List FileName} {name : FileName}
    (h : Left directory due)
    (hname : ∀ file owner, directory.files name = some file → parseOwnerFromName name = some owner →
      file.isRecoverable owner = false) : Left directory (due.filter (· ≠ name)) := by
  refine ⟨fun other file owner hfile howner hvalid => List.mem_filter.mpr ⟨?_, ?_⟩,
    fun other hother => ?_⟩
  · exact h.covers other file owner hfile howner hvalid
  · have hne : other ≠ name := by
      rintro rfl
      rw [hname file owner hfile howner] at hvalid
      cases hvalid
    simpa using hne
  · exact h.there other (List.mem_filter.mp hother).1

theorem Inv.visitMarker (h : system.Inv) {due : List FileName} {live : Bool} {name : FileName}
    (hphase : system.phase worker = .retiring due live) :
    (system.move worker (visitMarker system.directory name (due.filter (· ≠ name)) live,
      system.directory)).Inv := by
  have hhere := h.here worker
  rw [hphase] at hhere
  have hvisit := Covers.visit hhere name
  unfold QueryCache.visitMarker
  by_cases hmarker : isQueryActiveMarkerName name = true
  · rw [if_pos hmarker]
    cases hfile : system.directory.files name with
    | none =>
      exact h.goOn hphase rfl rfl (fun _ => rfl) (by simp)
        ((hvisit.without fun _ _ => h.own_there hfile).move _)
    | some file =>
      by_cases hplain : file.plain = true
      · simp only [hplain, if_true]
        exact h.goOn hphase rfl rfl (fun _ => rfl) (by simp) ⟨hvisit.move _, hmarker⟩
      · simp only [hplain]
        exact h.goOn hphase rfl rfl (fun _ => rfl) (by simp) (.inl rfl)
  · rw [if_neg hmarker]
    refine h.goOn hphase rfl rfl (fun _ => rfl) (by simp)
      ((hvisit.without fun other _ hown => ?_).move _)
    exact hmarker (h.own other name hown).1

theorem Inv.openMarker (h : system.Inv) {due : List FileName} {live : Bool} {name : FileName}
    (hphase : system.phase worker = .opening name due live) :
    (system.move worker (openMarker worker system.directory name due live)).Inv := by
  have hhere := h.here worker
  rw [hphase] at hhere
  obtain ⟨hcovers, hmarker⟩ := hhere
  have hown : (system.phase worker).own = none := by
    rw [hphase]
    rfl
  have hheld : (system.phase worker).held = none := by
    rw [hphase]
    rfl
  have hstartup : (system.phase worker).startup = true := by
    rw [hphase]
    rfl
  unfold QueryCache.openMarker
  cases hfile : system.directory.files name with
  | none =>
    exact h.goOn hphase rfl rfl (fun _ => rfl) (by simp)
      ((hcovers.without fun _ _ => h.own_there hfile).move _)
  | some file =>
    dsimp only
    cases hopen : file.handle with
    | some other =>
      exact h.goOn hphase rfl rfl (fun _ => rfl) (by simp) (.inl rfl)
    | none =>
      refine h.move (h.put ?_ (fun _ => ⟨hmarker, .inr rfl⟩) ?_ ?_ ?_ ?_ hstartup.symm (by simp)
        (.inl hstartup)) ⟨(hcovers.without fun _ _ => h.own_open hfile hopen).move _, ?_⟩
      · intro old hold
        rw [hfile] at hold
        cases hold
        exact hopen
      · intro other hother heq
        exact hother (Option.some.inj heq).symm
      · intro hname
        exact absurd (parseOwner_marker hmarker) hname
      · intro marker heq
        cases heq
      · rintro other (heq | heq)
        · rw [hown] at heq
          cases heq
        · rw [hheld] at heq
          cases heq
      · exact ⟨_, put_files_self .., rfl⟩

/-- A worker closes its marker, or the stale one it has open. -/
theorem Inv.closes (h : system.Inv) {phase phase' : Phase} {name : FileName}
    (hphase : system.phase worker = phase) (hname : phase.own = some name ∨ phase.held = some name)
    (honly : ∀ other, phase.own = some other ∨ phase.held = some other → other = name)
    (hmarker : isQueryActiveMarkerName name = true) (hown : phase'.own = none)
    (hstartup : phase'.startup = true → phase.startup = true) (hnew : phase' ≠ .new)
    (hnext : (system.move worker (phase', system.directory.close worker name)).Here worker phase') :
    (system.move worker (phase', system.directory.close worker name)).Inv := by
  subst hphase
  exact h.move (h.close honly hmarker hown hstartup hnew) hnext

theorem Inv.createMarker (h : system.Inv) {live : Bool} (choice : Choice)
    (hphase : system.phase worker = .creating live) :
    (system.move worker (createMarker worker choice system.directory live)).Inv := by
  have hhere := h.here worker
  rw [hphase] at hhere
  have hown : (system.phase worker).own = none := by
    rw [hphase]
    rfl
  have hheld : (system.phase worker).held = none := by
    rw [hphase]
    rfl
  have hstartup : (system.phase worker).startup = true := by
    rw [hphase]
    rfl
  unfold QueryCache.createMarker
  cases choice.name with
  | none => exact h.goOn hphase rfl rfl (fun heq => by cases heq) (by simp) trivial
  | some name =>
    dsimp only
    by_cases hfree : isQueryActiveMarkerName name = true ∧ system.directory.files name = none
    · obtain ⟨hmarker, hfile⟩ := hfree
      rw [if_pos ⟨hmarker, hfile⟩]
      refine h.move (h.put ?_ (fun _ => ⟨hmarker, .inl rfl⟩) ?_ ?_ ?_ ?_ hstartup.symm (by simp)
        (.inl hstartup)) (Covers.move hhere _)
      · intro old hold
        rw [hfile] at hold
        cases hold
      · intro other hother heq
        exact hother (Option.some.inj heq).symm
      · intro hname
        exact absurd (parseOwner_marker hmarker) hname
      · intro marker heq
        exact .inr ⟨(Option.some.inj heq).symm, hmarker, rfl, rfl⟩
      · rintro other (heq | heq)
        · rw [hown] at heq
          cases heq
        · rw [hheld] at heq
          cases heq
    · rw [if_neg hfree]
      exact h.goOn hphase rfl rfl (fun _ => rfl) (by simp) (Covers.move hhere _)

theorem Inv.examine (h : system.Inv) {own name : FileName} {due : List FileName}
    (hphase : system.phase worker = .recovering own due) :
    (system.move worker (examine worker system.directory own name
    (due.filter (· ≠ name)))).Inv := by
  have hhere := h.here worker
  rw [hphase] at hhere
  obtain ⟨hcovers, hleft⟩ := hhere
  have hmarker := (h.own worker own (by rw [hphase]; rfl)).1
  unfold QueryCache.examine
  cases howner : parseOwnerFromName name with
  | none =>
    refine h.goOn hphase rfl rfl (fun _ => rfl) (by simp) ⟨hcovers.move _, hleft.skip ?_⟩
    intro file owner _ hparse
    rw [howner] at hparse
    cases hparse
  | some owner =>
    dsimp only
    cases hfile : system.directory.files name with
    | none =>
      exact h.closes hphase (.inl rfl) (by rintro other (heq | heq) <;> cases heq; rfl) hmarker rfl
        (fun heq => by cases heq) (by simp) hmarker
    | some file =>
      dsimp only
      by_cases hvalid : file.isRecoverable owner = true
      · rw [if_pos hvalid]
        refine h.goOn hphase rfl rfl (fun _ => rfl) (by simp) ⟨hcovers.move _, ⟨?_, ?_⟩, ?_, ?_⟩
        · intro other file' owner' hfile' howner' hvalid'
          by_cases hname : other = name
          · exact hname ▸ List.mem_cons_self
          · exact List.mem_cons_of_mem _ (List.mem_filter.mpr
              ⟨hleft.covers other file' owner' hfile' howner' hvalid', by simpa⟩)
        · intro other hother hhits
          rcases List.mem_cons.mp hother with rfl | hin
          · show system.directory.files other ≠ none
            rw [hfile]
            simp
          · exact hleft.there other (List.mem_filter.mp hin).1 hhits
        · rw [howner]
          simp
        · simp
      · rw [if_neg hvalid]
        refine h.goOn hphase rfl rfl (fun _ => rfl) (by simp) ⟨hcovers.move _, hleft.skip ?_⟩
        intro file' owner' hfile' howner'
        rw [hfile] at hfile'
        rw [howner] at howner'
        cases hfile'
        cases howner'
        simpa using hvalid

theorem Inv.serve (h : system.Inv) {own : FileName} {sessions : List FileName} (call : Call)
    (hphase : system.phase worker = .running own sessions) :
    (system.move worker (serve worker system.directory own sessions call)).Inv := by
  have hhere := h.here worker
  rw [hphase] at hhere
  have hown : (system.phase worker).own = some own := by
    rw [hphase]
    rfl
  have hkeep : (system.move worker (.running own sessions, system.directory)).Inv :=
    h.goOn hphase rfl rfl (fun heq => by cases heq) (by simp) hhere
  -- what is written to a file of hits
  have hwrite : ∀ (name : FileName) (file : File) (more : List FileName),
      parseOwnerFromName name ≠ none → file.handle = none →
      (∀ other, file.creator = some other →
        (∃ old, system.directory.files name = some old ∧ old.creator = some other) ∨
          other = worker) →
      (∀ name ∈ more, parseOwnerFromName name ≠ none) →
      (system.move worker (.running own more, system.directory.put name file)).Inv := by
    intro name file more hname hopen hcreator hmore
    refine h.move (h.put (h.hits_free hname) ?_ ?_ ?_ ?_ ?_ ?_ (by simp)
      (.inr ⟨hopen, ?_, hown.symm⟩))
      hmore
    · intro heq
      rw [hopen] at heq
      cases heq
    · intro other _ heq
      rw [hopen] at heq
      cases heq
    · intro _ other hother
      rcases hcreator other hother with hold | hnew
      · exact .inl hold
      · exact .inr ⟨hnew, rfl, by simp⟩
    · intro marker heq
      exact .inl (hown.trans heq)
    · rintro other (heq | heq)
      · exact .inl (hown.symm.trans heq)
      · rw [hphase] at heq
        cases heq
    · rw [hphase]
      rfl
    · rw [hown]
      simp
  unfold QueryCache.serve
  cases call with
  | create owner =>
    dsimp only
    split_ifs with hfree
    · have hname : parseOwnerFromName (scratchFileName owner) ≠ none := by
        rw [parseOwner_scratchFileName hfree.1]
        simp
      refine hwrite _ _ _ hname rfl (fun other heq => .inr (Option.some.inj heq).symm) ?_
      intro name hin
      rcases List.mem_cons.mp hin with rfl | hold
      · exact hname
      · exact hhere name hold
    · exact hkeep
  | write name bytes =>
    dsimp only
    split_ifs with hin
    · cases hfile : system.directory.files name with
      | none =>
        have hsame : system.directory.modify name (fun file => { file with bytes := bytes }) =
            system.directory := by
          unfold Directory.modify
          rw [hfile, Option.map_none, ← hfile, Function.update_eq_self]
        rw [hsame]
        exact hkeep
      | some file =>
        have hput : system.directory.modify name (fun file => { file with bytes := bytes }) =
            system.directory.put name { file with bytes := bytes } := by
          unfold Directory.modify Directory.put
          rw [hfile, Option.map_some]
        rw [hput]
        exact hwrite _ _ _ (hhere name hin) (h.hits_free (hhere name hin) file hfile)
          (fun other heq => .inl ⟨file, hfile, heq⟩) hhere
    · exact hkeep
  | drop name =>
    dsimp only
    split_ifs with hin
    · exact h.goOn hphase rfl rfl (fun heq => by cases heq) (by simp)
        ⟨hhere name hin, fun other hother => hhere other (List.mem_filter.mp hother).1⟩
    · exact hkeep
  | stop =>
    dsimp only
    have hmarker := (h.own worker own hown).1
    split_ifs
    · exact h.closes hphase (.inl rfl) (by rintro other (heq | heq) <;> cases heq; rfl) hmarker rfl
        (fun heq => by cases heq) (by simp) hmarker
    · exact hkeep

theorem unlock_files (worker : WorkerId) (directory : Directory) : ∃ lock,
    unlock worker directory = { directory with lock := lock } ∧
      (directory.lock = some worker → lock = none) ∧
        (directory.lock ≠ some worker → lock = directory.lock) := by
  unfold unlock
  split_ifs with hlock
  · exact ⟨none, rfl, fun _ => rfl, fun hne => absurd hlock hne⟩
  · exact ⟨directory.lock, rfl, fun heq => absurd heq hlock, fun _ => rfl⟩

/-- The lock is given back, if the worker has it. -/
theorem Inv.unlocks (h : system.Inv) {phase phase' : Phase} (hphase : system.phase worker = phase)
    (hown : phase'.own = phase.own) (hheld : phase'.held = phase.held)
    (hstartup : phase'.startup = false) (hnew : phase' ≠ .new)
    (hnext : ∀ directory, (system.move worker (phase', directory)).Here worker phase') :
    (system.move worker (phase', unlock worker system.directory)).Inv := by
  subst hphase
  obtain ⟨lock, hunlock, hmine, hother⟩ := unlock_files worker system.directory
  rw [hunlock]
  refine h.move (h.sameFiles hown hheld (fun heq => ?_) (fun other hne hlock => ?_)
    fun _ _ => ⟨hstartup, hnew⟩) (hnext _)
  · rw [hstartup] at heq
    cases heq
  · rw [hother (by rw [hlock]; exact fun heq => hne (Option.some.inj heq)), hlock]

theorem Inv.act (h : system.Inv) (choice : Choice)
    (admits : Admits choice system.directory (system.phase worker)) :
    (system.move worker (act worker choice system.directory (system.phase worker))).Inv := by
  have hhere := h.here worker
  cases hphase : system.phase worker with
  | new =>
    rw [hphase] at admits
    unfold QueryCache.act
    dsimp only
    split_ifs with hlock
    · refine h.move (h.sameFiles (by rw [hphase]; rfl) (by rw [hphase]; rfl) (fun _ => rfl) ?_
        fun _ hnew => absurd hphase hnew) (.inr fun other _ marker hmarker => ?_)
      · intro other _ hheld
        rw [hlock] at hheld
        cases hheld
      · by_cases hother : other = worker
        · subst hother
          contradiction
        · have hsame : (system.move worker (Phase.retiring choice.listing false,
              { system.directory with lock := some worker })).phase other = system.phase other :=
            Function.update_of_ne hother ..
          rw [hsame] at hmarker
          exact (admits marker).mpr fun hnone => h.own_there hnone hmarker
    · exact h.goOn hphase rfl rfl (fun heq => by cases heq) (by simp) trivial
  | retiring due live =>
    rw [hphase] at hhere admits
    unfold QueryCache.act
    dsimp only
    cases hname : choice.name with
    | none =>
      unfold Admits at admits
      rw [hname] at admits
      dsimp only at admits
      refine h.goOn hphase rfl rfl (fun _ => rfl) (by simp) ?_
      rcases hhere with hlive | hdue
      · exact .inl hlive
      · exact Covers.move (.inr fun other hother marker hmarker =>
          absurd hmarker (h.own_there (admits marker (hdue other hother marker hmarker)))) _
    | some name => exact h.visitMarker hphase
  | opening name due live => exact h.openMarker hphase
  | holding name due live =>
    rw [hphase] at hhere
    obtain ⟨hcovers, file, hfile, hopen⟩ := hhere
    have hmarker := (h.handle name file worker hfile hopen).1
    refine h.closes hphase (.inr rfl) (by rintro other (heq | heq) <;> cases heq; rfl) hmarker rfl
      (fun _ => rfl) (by simp) ⟨hcovers.move _, ?_⟩
    intro file' hfile'
    have hself : (system.directory.close worker name).files name =
        some { file with handle := none } := by
      unfold Directory.close Directory.modify
      dsimp only
      rw [Function.update_self, hfile, Option.map_some, if_pos hopen]
    rw [show (system.move worker (Phase.removing name due live,
      system.directory.close worker name)).directory.files name = _ from hself] at hfile'
    cases hfile'
    rfl
  | removing name due live =>
    rw [hphase] at hhere
    obtain ⟨hcovers, hfree⟩ := hhere
    unfold QueryCache.act statMarker
    dsimp only
    cases hfile : system.directory.files name with
    | none => exact h.goOn hphase rfl rfl (fun _ => rfl) (by simp) (hcovers.move _)
    | some file =>
      dsimp only
      split_ifs
      · exact h.goOn hphase rfl rfl (fun _ => rfl) (by simp) ⟨hcovers.move _, hfree⟩
      · exact h.goOn hphase rfl rfl (fun heq => by cases heq) (by simp) trivial
  | unlinking name due live =>
    rw [hphase] at hhere
    obtain ⟨hcovers, hfree⟩ := hhere
    unfold QueryCache.act Directory.unlink
    dsimp only
    cases hfile : system.directory.files name with
    | none => exact h.goOn hphase rfl rfl (fun _ => rfl) (by simp) (hcovers.move _)
    | some file =>
      dsimp only
      rw [if_pos (hfree file hfile)]
      exact h.move (h.remove hfree (by rw [hphase]; rfl) (by rw [hphase]; rfl)
        (fun _ => by rw [hphase]; rfl) (by simp) (.inl (by rw [hphase]; rfl))) (hcovers.move _)
  | creating live => exact h.createMarker choice hphase
  | checking own live =>
    rw [hphase] at hhere admits
    have hmarker := (h.own worker own (by rw [hphase]; rfl)).1
    unfold QueryCache.act
    dsimp only
    cases (system.directory.files own).any (·.plain) with
    | true =>
      cases live with
      | true => exact h.goOn hphase rfl rfl (fun _ => rfl) (by simp) trivial
      | false =>
        refine h.goOn hphase rfl rfl (fun _ => rfl) (by simp) ⟨Covers.move hhere _, ⟨?_, ?_⟩⟩
        · intro name file owner hfile _ _
          refine (admits name).mpr fun hnone => ?_
          rw [show system.directory.files name = some file from hfile] at hnone
          cases hnone
        · intro name hin _
          exact (admits name).mp hin
    | false =>
      exact h.closes hphase (.inl rfl) (by rintro other (heq | heq) <;> cases heq; rfl) hmarker rfl
        (fun heq => by cases heq) (by simp) trivial
  | recovering own due =>
    unfold QueryCache.act
    dsimp only
    cases choice.name with
    | none => exact h.goOn hphase rfl rfl (fun _ => rfl) (by simp) trivial
    | some name => exact h.examine hphase
  | deleting own name due =>
    rw [hphase] at hhere
    obtain ⟨hcovers, hleft, hname, hnot⟩ := hhere
    have hmarker := (h.own worker own (by rw [hphase]; rfl)).1
    unfold QueryCache.act
    dsimp only
    cases hfile : system.directory.files name with
    | none =>
      exact h.closes hphase (.inl rfl) (by rintro other (heq | heq) <;> cases heq; rfl) hmarker rfl
        (fun heq => by cases heq) (by simp) hmarker
    | some file =>
      refine h.move (h.remove (h.hits_free hname) (by rw [hphase]; rfl) (by rw [hphase]; rfl)
        (by rw [hphase]; simp [Phase.startup]) (by simp) (.inl (by rw [hphase]; rfl)))
        ⟨hcovers.move _, ⟨?_, ?_⟩⟩
      · intro other file' owner hfile' howner hvalid
        have hne : other ≠ name := by
          rintro rfl
          rw [show (system.move worker (Phase.recovering own due,
            system.directory.remove other)).directory.files other = none from
            remove_files_self _] at hfile'
          cases hfile'
        rw [show (system.move worker (Phase.recovering own due,
          system.directory.remove name)).directory.files other = system.directory.files other from
          remove_files_of_ne hne _] at hfile'
        rcases List.mem_cons.mp (hleft.covers other file' owner hfile' howner hvalid) with heq | hin
        · exact absurd heq hne
        · exact hin
      · intro other hin hhits
        have hne : other ≠ name := by
          rintro rfl
          exact hnot hin
        rw [show (system.move worker (Phase.recovering own due,
          system.directory.remove name)).directory.files other = system.directory.files other from
          remove_files_of_ne hne _]
        exact hleft.there other (List.mem_cons_of_mem _ hin) hhits
  | unlocking own =>
    exact h.unlocks hphase rfl rfl rfl (by simp) fun _ name hin => absurd hin List.not_mem_nil
  | running own sessions => exact h.serve choice.call hphase
  | dropping own name sessions =>
    rw [hphase] at hhere
    unfold QueryCache.act
    dsimp only
    split_ifs
    · exact h.move (h.remove (h.hits_free hhere.1) (by rw [hphase]; rfl) (by rw [hphase]; rfl)
        (by rw [hphase]; simp [Phase.startup]) (by simp)
          (.inr (.inr (by rw [hphase]; simp [Phase.own]))))
        hhere.2
    · exact h.goOn hphase rfl rfl (fun heq => by cases heq) (by simp) hhere.2
  | withdrawing own =>
    rw [hphase] at hhere
    unfold QueryCache.act statMarker
    dsimp only
    cases system.directory.files own with
    | none => exact h.goOn hphase rfl rfl (fun heq => by cases heq) (by simp) trivial
    | some file =>
      dsimp only
      split_ifs
      · exact h.goOn hphase rfl rfl (fun heq => by cases heq) (by simp) hhere
      · exact h.goOn hphase rfl rfl (fun heq => by cases heq) (by simp) trivial
  | withdrawn own =>
    rw [hphase] at hhere
    have hkeep : (system.move worker (Phase.leaving, system.directory)).Inv :=
      h.goOn hphase rfl rfl (fun heq => by cases heq) (by simp) trivial
    unfold QueryCache.act Directory.unlink
    dsimp only
    cases hfile : system.directory.files own with
    | none => exact hkeep
    | some file =>
      dsimp only
      split_ifs with hfree
      · refine h.move (h.remove (fun old hold => ?_) (by rw [hphase]; rfl) (by rw [hphase]; rfl)
          (by rw [hphase]; simp [Phase.startup]) (by simp) (.inr (.inl hhere))) trivial
        rw [hfile] at hold
        cases hold
        exact hfree
      · exact hkeep
  | leaving => exact h.unlocks hphase rfl rfl rfl (by simp) fun _ => trivial
  | gone => exact h.goOn hphase rfl rfl (fun heq => by cases heq) (by simp) trivial
  | crashed => exact h.goOn hphase rfl rfl (fun heq => by cases heq) (by simp) trivial

theorem Inv.fail (h : system.Inv) :
    (system.move worker (fail worker system.directory (system.phase worker))).Inv := by
  have hhere := h.here worker
  have hown := h.own worker
  have hkeep : (system.move worker (system.phase worker, system.directory)).Inv := by
    have hsame : system.move worker (system.phase worker, system.directory) = system := by
      unfold System.move
      rw [Function.update_eq_self]
    rw [hsame]
    exact h
  cases hphase : system.phase worker with
  | retiring due live => exact h.goOn hphase rfl rfl (fun heq => by cases heq) (by simp) trivial
  | opening name due live => exact h.goOn hphase rfl rfl (fun heq => by cases heq) (by simp) trivial
  | removing name due live =>
    exact h.goOn hphase rfl rfl (fun heq => by cases heq) (by simp) trivial
  | unlinking name due live =>
    exact h.goOn hphase rfl rfl (fun heq => by cases heq) (by simp) trivial
  | creating live => exact h.goOn hphase rfl rfl (fun heq => by cases heq) (by simp) trivial
  | holding name due live =>
    rw [hphase] at hhere
    obtain ⟨-, file, hfile, hopen⟩ := hhere
    have hmarker := (h.handle name file worker hfile hopen).1
    exact h.closes hphase (.inr rfl) (by rintro other (heq | heq) <;> cases heq; rfl) hmarker rfl
      (fun heq => by cases heq) (by simp) trivial
  | checking own live =>
    rw [hphase] at hown
    exact h.closes hphase (.inl rfl) (by rintro other (heq | heq) <;> cases heq; rfl)
      (hown own rfl).1 rfl (fun heq => by cases heq) (by simp) trivial
  | recovering own due =>
    rw [hphase] at hown
    exact h.closes hphase (.inl rfl) (by rintro other (heq | heq) <;> cases heq; rfl)
      (hown own rfl).1 rfl (fun heq => by cases heq) (by simp) (hown own rfl).1
  | deleting own name due =>
    rw [hphase] at hown
    exact h.closes hphase (.inl rfl) (by rintro other (heq | heq) <;> cases heq; rfl)
      (hown own rfl).1 rfl (fun heq => by cases heq) (by simp) (hown own rfl).1
  | new | unlocking | running | dropping | withdrawing | withdrawn | leaving | gone | crashed =>
    rw [hphase] at hkeep
    exact hkeep

/-! ## The end of a process -/

section Crash
variable {process : WorkerId → Nat} {which : Nat}

theorem crash_phase_of_ne (h : process worker ≠ which) :
    (system.crash process which).phase worker = system.phase worker := by
  have hno : (process worker == which) = false := beq_eq_false_iff_ne.mpr h
  show endPhase (process worker == which) (system.phase worker) = system.phase worker
  rw [hno, endPhase]

theorem crash_phase_self (system : System) (h : process worker = which) :
    (system.crash process which).phase worker = .gone ∨
      (system.crash process which).phase worker = .crashed := by
  have hyes : (process worker == which) = true := beq_iff_eq.mpr h
  show endPhase (process worker == which) (system.phase worker) = .gone ∨
    endPhase (process worker == which) (system.phase worker) = .crashed
  rw [hyes]
  cases system.phase worker with
  | gone => exact .inl rfl
  | _ => exact .inr rfl

/-- What the end of a process leaves of a file: all but a handle. -/
theorem crash_file {name : FileName} {file : File}
    (h : (system.crash process which).directory.files name = some file) :
    ∃ old, system.directory.files name = some old ∧ file.plain = old.plain ∧
      file.creator = old.creator ∧ file.bytes = old.bytes ∧
      (∀ user, file.handle = some user → old.handle = some user ∧ process user ≠ which) := by
  obtain ⟨old, hold, rfl⟩ := Option.map_eq_some_iff.mp h
  refine ⟨old, hold, ?_⟩
  split_ifs with hends
  · exact ⟨rfl, rfl, rfl, fun user heq => by cases heq⟩
  · refine ⟨rfl, rfl, rfl, fun user heq => ⟨heq, ?_⟩⟩
    rw [heq, Option.any_some, beq_iff_eq] at hends
    exact hends

theorem crash_file_of_open {name : FileName} {file : File} {user : WorkerId}
    (h : system.directory.files name = some file) (hopen : file.handle = some user)
    (huser : process user ≠ which) :
    (system.crash process which).directory.files name = some file := by
  show (system.directory.files name).map _ = some file
  rw [h, Option.map_some, hopen, if_neg (by simpa using huser)]

theorem crash_files_none {name : FileName} :
    (system.crash process which).directory.files name = none ↔ system.directory.files name = none :=
  Option.map_eq_none_iff

theorem Covers.crash {due : List FileName} {live : Bool} (h : system.Covers worker due live) :
    (system.crash process which).Covers worker due live := by
  rcases h with hlive | hdue
  · exact .inl hlive
  · refine .inr fun other hother marker hmarker => ?_
    by_cases hends : process other = which
    · rcases crash_phase_self system hends with hgone | hgone
      · rw [hgone] at hmarker
        cases hmarker
      · rw [hgone] at hmarker
        cases hmarker
    · rw [crash_phase_of_ne hends] at hmarker
      exact hdue other hother marker hmarker

theorem Left.crash {due : List FileName} (h : Left system.directory due) :
    Left (system.crash process which).directory due := by
  refine ⟨fun name file owner hfile howner hvalid => ?_, fun name hname hhits hnone =>
    h.there name hname hhits (crash_files_none.mp hnone)⟩
  obtain ⟨old, hold, hplain, -, hbytes, -⟩ := crash_file hfile
  refine h.covers name old owner hold howner ?_
  unfold File.isRecoverable at hvalid ⊢
  rwa [← hplain, ← hbytes]

theorem Inv.here_crash (h : system.Inv) (hstays : process worker ≠ which) :
    (system.crash process which).Here worker (system.phase worker) := by
  have hhere := h.here worker
  have hclosed : ∀ name, (∀ file, system.directory.files name = some file → file.handle = none) →
      ∀ file, (system.crash process which).directory.files name = some file →
        file.handle = none := by
    intro name hfree file hfile
    obtain ⟨old, hold, -, -, -, hopen⟩ := crash_file hfile
    cases hhandle : file.handle with
    | none => rfl
    | some user =>
      have hopen := (hopen user hhandle).1
      rw [hfree old hold] at hopen
      cases hopen
  cases hphase : system.phase worker with
  | retiring due live =>
    rw [hphase] at hhere
    exact Covers.crash hhere
  | opening name due live =>
    rw [hphase] at hhere
    exact ⟨hhere.1.crash, hhere.2⟩
  | holding name due live =>
    rw [hphase] at hhere
    obtain ⟨hcovers, file, hfile, hopen⟩ := hhere
    exact ⟨hcovers.crash, file, crash_file_of_open hfile hopen hstays, hopen⟩
  | removing name due live =>
    rw [hphase] at hhere
    exact ⟨hhere.1.crash, hclosed name hhere.2⟩
  | unlinking name due live =>
    rw [hphase] at hhere
    exact ⟨hhere.1.crash, hclosed name hhere.2⟩
  | creating live =>
    rw [hphase] at hhere
    exact Covers.crash hhere
  | checking own live =>
    rw [hphase] at hhere
    exact Covers.crash hhere
  | recovering own due =>
    rw [hphase] at hhere
    exact ⟨hhere.1.crash, hhere.2.crash⟩
  | deleting own name due =>
    rw [hphase] at hhere
    exact ⟨hhere.1.crash, hhere.2.1.crash, hhere.2.2⟩
  | running own sessions =>
    rw [hphase] at hhere
    exact hhere
  | dropping own name sessions =>
    rw [hphase] at hhere
    exact hhere
  | withdrawing own =>
    rw [hphase] at hhere
    exact hhere
  | withdrawn own =>
    rw [hphase] at hhere
    exact hhere
  | new | unlocking | leaving | gone | crashed => trivial

theorem Inv.crash (h : system.Inv) (process : WorkerId → Nat) (which : Nat) :
    (system.crash process which).Inv := by
  have hcases : ∀ worker, process worker ≠ which ∧
      (system.crash process which).phase worker = system.phase worker ∨
      (system.crash process which).phase worker = .gone ∨
      (system.crash process which).phase worker = .crashed := by
    intro worker
    by_cases hends : process worker = which
    · exact .inr (crash_phase_self system hends)
    · exact .inl ⟨hends, crash_phase_of_ne hends⟩
  refine ⟨fun worker hstartup => ?_, fun worker marker hmarker => ?_,
    fun name file worker hfile hopen => ?_, fun name file worker hfile hname hcreator => ?_,
    fun worker => ?_⟩
  · rcases hcases worker with ⟨hends, hsame⟩ | hgone | hgone
    · rw [hsame] at hstartup
      show system.directory.lock.filter _ = some worker
      rw [h.lock worker hstartup, Option.filter_some, if_pos (by simpa using hends)]
    · rw [hgone] at hstartup
      cases hstartup
    · rw [hgone] at hstartup
      cases hstartup
  · rcases hcases worker with ⟨hends, hsame⟩ | hgone | hgone
    · rw [hsame] at hmarker
      obtain ⟨hname, file, hfile, hopen, hplain⟩ := h.own worker marker hmarker
      exact ⟨hname, file, crash_file_of_open hfile hopen hends, hopen, hplain⟩
    · rw [hgone] at hmarker
      cases hmarker
    · rw [hgone] at hmarker
      cases hmarker
  · obtain ⟨old, hold, -, -, -, hhandle⟩ := crash_file hfile
    obtain ⟨hopen, hends⟩ := hhandle worker hopen
    rw [crash_phase_of_ne hends]
    exact h.handle name old worker hold hopen
  · obtain ⟨old, hold, -, hsame, -, -⟩ := crash_file hfile
    obtain ⟨hstartup, hnew⟩ := h.creator name old worker hold hname (hsame ▸ hcreator)
    rcases hcases worker with ⟨-, heq⟩ | hgone | hgone
    · rw [heq]
      exact ⟨hstartup, hnew⟩
    · rw [hgone]
      exact ⟨rfl, by simp⟩
    · rw [hgone]
      exact ⟨rfl, by simp⟩
  · rcases hcases worker with ⟨hends, hsame⟩ | hgone | hgone
    · rw [hsame]
      exact h.here_crash hends
    · rw [hgone]
      trivial
    · rw [hgone]
      trivial

end Crash

theorem Reachable.inv {process : WorkerId → Nat} (h : Reachable process system) : system.Inv := by
  induction h with
  | start lock phase files =>
    refine ⟨fun worker heq => ?_, fun worker marker heq => ?_, fun name file worker hfile hopen =>
      ?_,
      fun name file worker hfile _ hcreator => ?_, fun worker => ?_⟩
    · rw [phase worker] at heq
      cases heq
    · rw [phase worker] at heq
      cases heq
    · rw [(files name file hfile).1] at hopen
      cases hopen
    · rw [(files name file hfile).2] at hcreator
      cases hcreator
    · rw [phase worker]
      trivial
  | step _ hstep ih =>
    cases hstep with
    | act worker choice admits => exact ih.act choice admits
    | fail worker => exact ih.fail
    | crash which => exact ih.crash _ which

/-! ## What a recovery does -/

/-- While a worker recovers, no other has its marker open. -/
theorem Inv.not_holdsMarker (h : system.Inv) {other : WorkerId} (hother : other ≠ worker)
    (hstartup : (system.phase worker).startup = true) (hcovers : system.Covers worker [] false) :
    ¬ system.HoldsMarker other := by
  rintro ⟨name, file, -, hfile, -, hopen⟩
  rcases hcovers with hlive | hnone
  · cases hlive
  rcases (h.handle name file other hfile hopen).2 with hown | hheld
  · exact absurd (hnone other hother name hown) List.not_mem_nil
  · have hstarts : (system.phase other).startup = true := by
      cases hphase : system.phase other with
      | holding => rfl
      | _ =>
        rw [hphase] at hheld
        cases hheld
    have hlock := h.lock other hstarts
    rw [h.lock worker hstartup] at hlock
    exact hother (Option.some.inj hlock).symm

theorem put_files_some {name other : FileName} (file : File) {directory : Directory}
    (h : directory.files other ≠ none) : (directory.put name file).files other ≠ none := by
  by_cases hname : other = name
  · subst hname
    rw [put_files_self]
    simp
  · rwa [put_files_of_ne hname]

theorem modify_files_some {name other : FileName} (f : File → File) {directory : Directory}
    (h : directory.files other ≠ none) : (directory.modify name f).files other ≠ none := by
  by_cases hname : other = name
  · subst hname
    unfold Directory.modify
    dsimp only
    rw [Function.update_self]
    simpa using h
  · unfold Directory.modify
    dsimp only
    rwa [Function.update_of_ne hname]

theorem remove_files_some {name other : FileName} {file : File} {directory : Directory}
    (h : directory.files other = some file) (hopen : file.handle ≠ none)
    (hfree : ∀ old, directory.files name = some old → old.handle = none) :
    (directory.remove name).files other ≠ none := by
  have hname : other ≠ name := by
    rintro rfl
    exact hopen (hfree file h)
  rw [remove_files_of_ne hname, h]
  simp

theorem unlink_files_some {name other : FileName} {file : File} {directory directory' : Directory}
    (h : directory.files other = some file) (hopen : file.handle ≠ none)
    (hunlink : directory.unlink name = some directory') : directory'.files other ≠ none := by
  unfold Directory.unlink at hunlink
  have hthere : directory.files other ≠ none := by
    rw [h]
    simp
  cases hname : directory.files name with
  | none =>
    rw [hname] at hunlink
    cases hunlink
    exact hthere
  | some old =>
    rw [hname] at hunlink
    dsimp only at hunlink
    split_ifs at hunlink with hfree
    cases hunlink
    refine remove_files_some h hopen fun old' hold => ?_
    rw [hname] at hold
    cases hold
    exact hfree

/-- No action removes a file that is open without sharing. -/
theorem Inv.act_stays (h : system.Inv) (worker : WorkerId) (choice : Choice) {name : FileName}
    {file : File}
    (hfile : system.directory.files name = some file) (hopen : file.handle ≠ none) :
    (QueryCache.act worker choice system.directory (system.phase worker)).2.files name ≠ none := by
  have hhere := h.here worker
  have hthere : system.directory.files name ≠ none := by
    rw [hfile]
    simp
  have hunlock : (unlock worker system.directory).files name ≠ none := by
    obtain ⟨lock, heq, -⟩ := unlock_files worker system.directory
    rwa [heq]
  cases hphase : system.phase worker with
  | new =>
    unfold QueryCache.act
    dsimp only
    split_ifs
    · exact hthere
    · exact hthere
  | retiring due live =>
    unfold QueryCache.act
    cases choice.name with
    | none => exact hthere
    | some other => exact hthere
  | opening other due live =>
    unfold QueryCache.act QueryCache.openMarker
    dsimp only
    cases system.directory.files other with
    | none => exact hthere
    | some old =>
      dsimp only
      cases old.handle with
      | none => exact put_files_some _ hthere
      | some user => exact hthere
  | holding other due live => exact modify_files_some _ hthere
  | removing other due live => exact hthere
  | unlinking other due live =>
    unfold QueryCache.act
    dsimp only
    cases hunlink : system.directory.unlink other with
    | none => exact hthere
    | some directory' => exact unlink_files_some hfile hopen hunlink
  | creating live =>
    unfold QueryCache.act QueryCache.createMarker
    dsimp only
    cases choice.name with
    | none => exact hthere
    | some other =>
      dsimp only
      split_ifs
      · exact put_files_some _ hthere
      · exact hthere
  | checking own live =>
    unfold QueryCache.act
    dsimp only
    cases (system.directory.files own).any (·.plain) with
    | true => exact hthere
    | false => exact modify_files_some _ hthere
  | recovering own due =>
    unfold QueryCache.act QueryCache.examine
    dsimp only
    cases choice.name with
    | none => exact hthere
    | some other =>
      dsimp only
      cases parseOwnerFromName other with
      | none => exact hthere
      | some owner =>
        dsimp only
        cases system.directory.files other with
        | none => exact modify_files_some _ hthere
        | some old =>
          dsimp only
          split_ifs
          · exact hthere
          · exact hthere
  | deleting own other due =>
    rw [hphase] at hhere
    unfold QueryCache.act
    dsimp only
    cases system.directory.files other with
    | none => exact modify_files_some _ hthere
    | some old => exact remove_files_some hfile hopen (h.hits_free hhere.2.2.1)
  | unlocking own => exact hunlock
  | running own sessions =>
    unfold QueryCache.act QueryCache.serve
    dsimp only
    cases choice.call with
    | create owner =>
      dsimp only
      split_ifs
      · exact put_files_some _ hthere
      · exact hthere
    | write other bytes =>
      dsimp only
      split_ifs
      · exact modify_files_some _ hthere
      · exact hthere
    | drop other =>
      dsimp only
      split_ifs
      · exact hthere
      · exact hthere
    | stop =>
      dsimp only
      split_ifs
      · exact modify_files_some _ hthere
      · exact hthere
  | dropping own other sessions =>
    rw [hphase] at hhere
    unfold QueryCache.act
    dsimp only
    split_ifs
    · exact remove_files_some hfile hopen (h.hits_free hhere.1)
    · exact hthere
  | withdrawing own => exact hthere
  | withdrawn own =>
    unfold QueryCache.act
    dsimp only
    cases hunlink : system.directory.unlink own with
    | none => exact hthere
    | some directory' => exact unlink_files_some hfile hopen hunlink
  | leaving => exact hunlock
  | gone => exact hthere
  | crashed => exact hthere

/-- What a step leaves of a file that is open without sharing. -/
theorem Inv.open_stays {process : WorkerId → Nat} {system' : System} (h : system.Inv)
    (hstep : Step process system system') {name : FileName} {file : File} {user : WorkerId}
    (hfile : system.directory.files name = some file) (hopen : file.handle = some user) :
    system'.directory.files name ≠ none := by
  have hthere : system.directory.files name ≠ none := by
    rw [hfile]
    simp
  cases hstep with
  | act worker choice admits => exact h.act_stays worker choice hfile (by rw [hopen]; simp)
  | fail worker =>
    show (QueryCache.fail worker system.directory (system.phase worker)).2.files name ≠ none
    cases system.phase worker with
    | holding | checking | recovering | deleting => exact modify_files_some _ hthere
    | _ => exact hthere
  | crash which => exact fun hnone => hthere (crash_files_none.mp hnone)

/-- In whatever order the workers of whatever processes act, and wherever one of them ends: what a
recovery is about to remove belongs to no worker that has its marker open; no file that is open
without sharing goes, and a marker about to be retired is open to nobody; where a recovery ends,
no valid file of hits is left, and before it ends none that it has still to come to has gone. -/
theorem recovery_spares_live {process : WorkerId → Nat} (h : Reachable process system) :
    (∀ worker own name due, system.phase worker = .deleting own name due →
      ∃ file, system.directory.files name = some file ∧
        ∀ user, file.creator = some user → ¬ system.HoldsMarker user) ∧
    (∀ system' name file user, Step process system system' →
      system.directory.files name = some file → file.handle = some user →
        system'.directory.files name ≠ none) ∧
    (∀ worker name due live, system.phase worker = .unlinking name due live →
      ∀ file, system.directory.files name = some file → file.handle = none) ∧
    (∀ worker own due, system.phase worker = .recovering own due →
      (∀ name ∈ due, system.directory.files name = none) →
        ∀ name file owner, system.directory.files name = some file →
          parseOwnerFromName name = some owner → file.isRecoverable owner = false) ∧
    ∀ worker own due, system.phase worker = .recovering own due →
      ∀ name ∈ due, parseOwnerFromName name ≠ none → system.directory.files name ≠ none := by
  have hinv := h.inv
  refine ⟨fun worker own name due hphase => ?_, fun system' name file user hstep hfile hopen =>
    hinv.open_stays hstep hfile hopen, fun worker name due live hphase => ?_,
    fun worker own due hphase hend name file owner hfile howner => ?_,
    fun worker own due hphase name hin hhits => ?_⟩
  · have hhere := hinv.here worker
    have hstartup : (system.phase worker).startup = true := by
      rw [hphase]
      rfl
    rw [hphase] at hhere
    obtain ⟨hcovers, hleft, hname, -⟩ := hhere
    obtain ⟨file, hfile⟩ :=
      Option.ne_none_iff_exists'.mp (hleft.there name List.mem_cons_self hname)
    refine ⟨file, hfile, fun user hcreator => ?_⟩
    by_cases huser : user = worker
    · subst huser
      have hidle := (hinv.creator name file user hfile hname hcreator).1
      rw [hstartup] at hidle
      cases hidle
    · exact hinv.not_holdsMarker huser hstartup hcovers
  · have hhere := hinv.here worker
    rw [hphase] at hhere
    exact hhere.2
  · have hhere := hinv.here worker
    rw [hphase] at hhere
    by_contra hvalid
    have hdue := hhere.2.covers name file owner hfile howner (by simpa using hvalid)
    rw [hend name hdue] at hfile
    cases hfile
  · have hhere := hinv.here worker
    rw [hphase] at hhere
    exact hhere.2.there name hin hhits

/-! ## A file that a crash has left -/

/-- A cache that nobody has used. -/
def unused : System := ⟨⟨fun _ => none, none⟩, fun _ => .new⟩

def firstMarker : FileName :=
  activeMarkerPrefix ++ List.replicate 32 'a' ++ activeMarkerSuffix

def secondMarker : FileName :=
  activeMarkerPrefix ++ List.replicate 32 'b' ++ activeMarkerSuffix

def firstHits : FileName := scratchFileName (List.replicate 16 0)

/-- A worker acts. -/
def turn (worker : WorkerId) (choice : Choice) (system : System) : System :=
  system.move worker (act worker choice system.directory (system.phase worker))

theorem Reachable.turn {process : WorkerId → Nat} (h : Reachable process system)
    (worker : WorkerId) (choice : Choice) (phase : Phase) (hphase : system.phase worker = phase)
    (hadmits : Admits choice system.directory phase) :
    Reachable process (system.turn worker choice) :=
  .step h (.act worker _ (hphase ▸ hadmits))

def comesTo (name : Option FileName) : Choice := ⟨name, [], .stop, true⟩

def lists (listing : List FileName) : Choice := ⟨none, listing, .stop, true⟩

def calls (call : Call) : Choice := ⟨none, [], call, true⟩

/-- The first worker has written the header of a file of hits, and its process has ended. -/
def firstCrashed : System :=
  let marked := ((unused.turn 0 (lists [])).turn 0 (comesTo none)).turn 0
    (comesTo (some firstMarker))
  let running := (((marked.turn 0 (lists [firstMarker])).turn 0
    (comesTo (some firstMarker))).turn 0 (comesTo none)).turn 0 (comesTo none)
  let written := (running.turn 0 (calls (.create (List.replicate 16 0)))).turn 0
    (calls (.write firstHits (scratchHeader (List.replicate 16 0))))
  written.crash id 0

/-- The second worker has retired the marker of the first, and has its own. -/
def secondMarked : System :=
  let opened := ((firstCrashed.turn 1 (lists [firstMarker, firstHits])).turn 1
    (comesTo (some firstMarker))).turn 1 (comesTo none)
  let retired := ((opened.turn 1 (comesTo none)).turn 1 (comesTo none)).turn 1 (comesTo none)
  ((retired.turn 1 (comesTo (some firstHits))).turn 1 (comesTo none)).turn 1
    (comesTo (some secondMarker))

/-- The second worker has come to the file of hits of the first. -/
def secondRecovers : System :=
  (secondMarked.turn 1 (lists [firstHits, secondMarker])).turn 1 (comesTo (some firstHits))

/-- A directory of two files. -/
def twoFiles (a b : FileName) (f g : File) : FileName → Option File :=
  Function.update (Function.update (fun _ => none) a (some f)) b (some g)

theorem mem_twoFiles {a b : FileName} {f g : File} (hne : a ≠ b) (name : FileName) :
    name ∈ [a, b] ↔ twoFiles a b f g name ≠ none := by
  unfold twoFiles
  by_cases hb : name = b
  · simp [hb]
  · by_cases ha : name = a
    · subst ha
      simp [hne]
    · simp [ha, hb]

def leftHits : File := ⟨true, some 0, none, scratchHeader (List.replicate 16 0)⟩

theorem firstCrashed_files : firstCrashed.directory.files =
    twoFiles firstMarker firstHits ⟨true, some 0, none, []⟩ leftHits := by
  have hfiles : firstCrashed.directory.files = fun name => (Function.update
      (twoFiles firstMarker firstHits ⟨true, some 0, some 0, []⟩ ⟨true, some 0, none, []⟩)
      firstHits (some leftHits) name).map fun file =>
        if file.handle.any (id · == 0) then { file with handle := none } else file := by
    rfl
  rw [hfiles]
  funext name
  by_cases hhits : name = firstHits
  · subst hhits
    rfl
  · by_cases hmarker : name = firstMarker
    · subst hmarker
      rfl
    · simp [twoFiles, hhits, hmarker]

theorem secondMarked_files : secondMarked.directory.files =
    twoFiles firstHits secondMarker leftHits ⟨true, some 1, some 1, []⟩ := by
  have hfiles : secondMarked.directory.files = Function.update (Function.update (Function.update
      (Function.update firstCrashed.directory.files firstMarker (some ⟨true, some 0, some 1, []⟩))
        firstMarker (some ⟨true, some 0, none, []⟩)) firstMarker none) secondMarker
      (some ⟨true, some 1, some 1, []⟩) := by
    rfl
  rw [hfiles, firstCrashed_files]
  funext name
  by_cases hsecond : name = secondMarker
  · simp [twoFiles, hsecond]
  · by_cases hhits : name = firstHits
    · subst hhits
      rfl
    · by_cases hmarker : name = firstMarker
      · subst hmarker
        rfl
      · simp [twoFiles, hsecond, hhits, hmarker]

theorem firstCrashed_reachable : Reachable id firstCrashed := by
  have hstart : Reachable id unused :=
    .start rfl (fun _ => rfl) fun _ _ hfile => by cases hfile
  have hlocked := hstart.turn 0 (lists []) .new rfl fun name => by simp [lists, unused]
  have hretired := hlocked.turn 0 (comesTo none) (.retiring [] false) rfl
    (by simp [Admits, comesTo])
  have hmarked := hretired.turn 0 (comesTo (some firstMarker)) (.creating false) rfl trivial
  have hchecked := hmarked.turn 0 (lists [firstMarker]) (.checking firstMarker false) rfl
    fun name => by
      change name ∈ [firstMarker] ↔ Function.update (fun _ => none) firstMarker
        (some (⟨true, some 0, some 0, []⟩ : File)) name ≠ none
      by_cases hname : name = firstMarker <;> simp [hname]
  have hseen := hchecked.turn 0 (comesTo (some firstMarker))
    (.recovering firstMarker [firstMarker]) rfl (.inl (by simp))
  have hrecovered := hseen.turn 0 (comesTo none) (.recovering firstMarker []) rfl
    (by simp [Admits, comesTo])
  have hruns := hrecovered.turn 0 (comesTo none) (.unlocking firstMarker) rfl trivial
  have hcreated := hruns.turn 0 (calls (.create (List.replicate 16 0)))
    (.running firstMarker []) rfl trivial
  have hwritten := hcreated.turn 0
    (calls (.write firstHits (scratchHeader (List.replicate 16 0))))
    (.running firstMarker [firstHits]) rfl trivial
  exact .step hwritten (.crash 0)

theorem secondRecovers_reachable : Reachable id secondRecovers := by
  have hlocked := firstCrashed_reachable.turn 1 (lists [firstMarker, firstHits]) .new rfl
    fun name => by
      rw [firstCrashed_files]
      exact mem_twoFiles (by decide) name
  have hseen := hlocked.turn 1 (comesTo (some firstMarker))
    (.retiring [firstMarker, firstHits] false) rfl (.inl (by simp))
  have hopened := hseen.turn 1 (comesTo none) (.opening firstMarker [firstHits] false) rfl trivial
  have hheld := hopened.turn 1 (comesTo none) (.holding firstMarker [firstHits] false) rfl trivial
  have hclosed := hheld.turn 1 (comesTo none) (.removing firstMarker [firstHits] false) rfl trivial
  have hremoved := hclosed.turn 1 (comesTo none) (.unlinking firstMarker [firstHits] false) rfl
    trivial
  have hskipped := hremoved.turn 1 (comesTo (some firstHits)) (.retiring [firstHits] false) rfl
    (.inl (by simp))
  have hretired := hskipped.turn 1 (comesTo none) (.retiring [] false) rfl
    (by simp [Admits, comesTo])
  have hmarked := hretired.turn 1 (comesTo (some secondMarker)) (.creating false) rfl trivial
  have hchecked := hmarked.turn 1 (lists [firstHits, secondMarker]) (.checking secondMarker false)
    rfl fun name => by
      change name ∈ [firstHits, secondMarker] ↔ secondMarked.directory.files name ≠ none
      rw [secondMarked_files]
      exact mem_twoFiles (by decide) name
  exact hchecked.turn 1 (comesTo (some firstHits))
    (.recovering secondMarker [firstHits, secondMarker]) rfl (.inl (by simp))

/-- The second worker is about to remove what the first has left, whose marker is not open. -/
theorem recovery_spares_live_leftHits :
    secondRecovers.phase 1 = .deleting secondMarker firstHits [secondMarker] ∧
      ∃ file, secondRecovers.directory.files firstHits = some file ∧ file.creator = some 0 ∧
        ¬ secondRecovers.HoldsMarker 0 := by
  have hphase : secondRecovers.phase 1 = .deleting secondMarker firstHits [secondMarker] := by rfl
  obtain ⟨file, hfile, hcreator⟩ :=
    (recovery_spares_live secondRecovers_reachable).1 1 _ _ _ hphase
  have hleft : secondRecovers.directory.files firstHits = some leftHits := by rfl
  have hfirst : file.creator = some 0 := by
    rw [hleft] at hfile
    cases hfile
    rfl
  exact ⟨hphase, file, hfile, hfirst, hcreator 0 hfirst⟩

end System

end LeanRows.QueryCache
