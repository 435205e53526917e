import LeanRows.Worker.CacheFiles

/-!
# Markers of the query cache

What holds of the directory and of all workers in every state, and what an action has to leave to
the others for it to hold on. A worker that has looked at every entry without finding an open
marker has the startup lock still, so that no other comes to have files of hits.
-/

namespace LeanRows.QueryCache

set_option autoImplicit false

/-! ## What holds in every state -/

namespace Phase

/-- The marker that the worker has open as its own. -/
def own : Phase → Option FileName
  | .checking own _ | .recovering own _ | .deleting own .. | .unlocking own | .running own _
  | .dropping own .. => some own
  | _ => none

/-- The stale marker that the worker has open. -/
def held : Phase → Option FileName
  | .holding name .. => some name
  | _ => none

/-- The worker has the startup lock, and keeps it. -/
def startup : Phase → Bool
  | .retiring .. | .opening .. | .holding .. | .removing .. | .unlinking .. | .creating ..
  | .checking .. | .recovering .. | .deleting .. | .unlocking .. => true
  | _ => false

end Phase

namespace System

variable {system : System} {worker : WorkerId}

/-- The markers that others have open are still to come, if none has been found. -/
def Covers (system : System) (worker : WorkerId) (due : List FileName) (live : Bool) : Prop :=
  live = true ∨ ∀ other, other ≠ worker → ∀ marker, (system.phase other).own = some marker →
    marker ∈ due

/-- What a recovery has to remove is still to come, and what is to come is there. -/
structure Left (directory : Directory) (due : List FileName) : Prop where
  covers : ∀ name file owner, directory.files name = some file →
    parseOwnerFromName name = some owner → file.isRecoverable owner = true → name ∈ due
  there : ∀ name ∈ due, parseOwnerFromName name ≠ none → directory.files name ≠ none

/-- What a worker knows at the place where it stands. -/
def Here (system : System) (worker : WorkerId) : Phase → Prop
  | .retiring due live => system.Covers worker due live
  | .opening name due live =>
    system.Covers worker (name :: due) live ∧ isQueryActiveMarkerName name = true
  | .holding name due live => system.Covers worker due live ∧
    ∃ file, system.directory.files name = some file ∧ file.handle = some worker
  | .removing name due live | .unlinking name due live => system.Covers worker due live ∧
    ∀ file, system.directory.files name = some file → file.handle = none
  | .creating live | .checking _ live => system.Covers worker [] live
  | .recovering _ due => system.Covers worker [] false ∧ Left system.directory due
  | .deleting _ name due => system.Covers worker [] false ∧
    Left system.directory (name :: due) ∧ parseOwnerFromName name ≠ none ∧ name ∉ due
  | .running _ sessions => ∀ name ∈ sessions, parseOwnerFromName name ≠ none
  | .dropping _ name sessions =>
    parseOwnerFromName name ≠ none ∧ ∀ name ∈ sessions, parseOwnerFromName name ≠ none
  | .withdrawing own | .withdrawn own => isQueryActiveMarkerName own = true
  | _ => True

structure Inv (system : System) : Prop where
  lock : ∀ worker, (system.phase worker).startup = true → system.directory.lock = some worker
  own : ∀ worker marker, (system.phase worker).own = some marker →
    isQueryActiveMarkerName marker = true ∧ ∃ file, system.directory.files marker = some file ∧
      file.handle = some worker ∧ file.plain = true
  handle : ∀ name file worker, system.directory.files name = some file →
    file.handle = some worker → isQueryActiveMarkerName name = true ∧
      ((system.phase worker).own = some name ∨ (system.phase worker).held = some name)
  creator : ∀ name file worker, system.directory.files name = some file →
    parseOwnerFromName name ≠ none → file.creator = some worker →
      (system.phase worker).startup = false ∧ system.phase worker ≠ .new
  here : ∀ worker, system.Here worker (system.phase worker)

/-- What an action of a worker leaves to the others. -/
structure Guarantee (worker : WorkerId) (phase phase' : Phase) (directory directory' : Directory) :
    Prop where
  keeps : ∀ name file other, other ≠ worker → directory.files name = some file →
    file.handle = some other → directory'.files name = some file
  handles : ∀ name file other, other ≠ worker → directory'.files name = some file →
    file.handle = some other → directory.files name = some file
  mine : ∀ name file, directory'.files name = some file → file.handle = some worker →
    isQueryActiveMarkerName name = true ∧ (phase'.own = some name ∨ phase'.held = some name)
  own : ∀ marker, phase'.own = some marker → isQueryActiveMarkerName marker = true ∧
    ∃ file, directory'.files marker = some file ∧ file.handle = some worker ∧ file.plain = true
  lock : phase'.startup = true → directory'.lock = some worker
  lockKept : ∀ other, other ≠ worker → directory.lock = some other → directory'.lock = some other
  creator : ∀ name file other, directory'.files name = some file →
    parseOwnerFromName name ≠ none → file.creator = some other →
      (∃ file, directory.files name = some file ∧ file.creator = some other) ∨
        other = worker ∧ phase'.startup = false ∧ phase' ≠ .new
  started : phase.startup = false → phase ≠ .new → phase'.startup = false ∧ phase' ≠ .new
  calmHandles : ∀ other, other ≠ worker → directory.lock = some other → ∀ name file,
    directory'.files name = some file → file.handle ≠ none → directory.files name = some file
  calmOwn : ∀ other, other ≠ worker → directory.lock = some other → ∀ marker,
    phase'.own = some marker → phase.own = some marker
  calmHits : ∀ other, other ≠ worker → directory.lock = some other → phase.own = none →
    ∀ name, parseOwnerFromName name ≠ none → directory'.files name = directory.files name

/-- What another worker knows stays true. -/
theorem Inv.here_other {phase' : Phase} {directory' : Directory} {other : WorkerId}
    (h : system.Inv) (hother : other ≠ worker)
    (hg : Guarantee worker (system.phase worker) phase' system.directory directory') :
    (system.move worker (phase', directory')).Here other (system.phase other) := by
  have hhere := h.here other
  have hlock := h.lock other
  have hcovers : system.directory.lock = some other → ∀ due live, system.Covers other due live →
      (system.move worker (phase', directory')).Covers other due live := by
    rintro hheld due live (hlive | hdue)
    · exact .inl hlive
    refine .inr fun third hthird marker hmarker => ?_
    by_cases hthis : third = worker
    · subst hthis
      have hphase : ((system.move third (phase', directory')).phase third) = phase' :=
        Function.update_self ..
      rw [hphase] at hmarker
      exact hdue third hthird marker (hg.calmOwn other hother hheld marker hmarker)
    · have hphase : ((system.move worker (phase', directory')).phase third) = system.phase third :=
        Function.update_of_ne hthis ..
      rw [hphase] at hmarker
      exact hdue third hthird marker hmarker
  have hclosed : system.directory.lock = some other → ∀ name,
      (∀ file, system.directory.files name = some file → file.handle = none) →
      ∀ file, directory'.files name = some file → file.handle = none := by
    intro hheld name hnone file hfile
    by_contra hopen
    exact hopen (hnone file (hg.calmHandles other hother hheld name file hfile hopen))
  have hleft : system.directory.lock = some other → system.Covers other [] false → ∀ due,
      Left system.directory due → Left directory' due := by
    rintro hheld (hlive | hnone) due hleft
    · cases hlive
    have hidle : (system.phase worker).own = none := by
      cases hown : (system.phase worker).own with
      | none => rfl
      | some marker => exact absurd (hnone worker (Ne.symm hother) marker hown) List.not_mem_nil
    have hsame := hg.calmHits other hother hheld hidle
    refine ⟨fun name file owner hfile howner => ?_, fun name hname howner => ?_⟩
    · rw [hsame name (by rw [howner]; simp)] at hfile
      exact hleft.covers name file owner hfile howner
    · rw [hsame name howner]
      exact hleft.there name hname howner
  cases hphase : system.phase other with
  | retiring due live =>
    rw [hphase] at hhere hlock
    exact hcovers (hlock rfl) due live hhere
  | opening name due live =>
    rw [hphase] at hhere hlock
    exact ⟨hcovers (hlock rfl) _ live hhere.1, hhere.2⟩
  | holding name due live =>
    rw [hphase] at hhere hlock
    obtain ⟨hdue, file, hfile, hhandle⟩ := hhere
    exact ⟨hcovers (hlock rfl) due live hdue, file, hg.keeps name file other hother hfile hhandle,
      hhandle⟩
  | removing name due live =>
    rw [hphase] at hhere hlock
    exact ⟨hcovers (hlock rfl) due live hhere.1, hclosed (hlock rfl) name hhere.2⟩
  | unlinking name due live =>
    rw [hphase] at hhere hlock
    exact ⟨hcovers (hlock rfl) due live hhere.1, hclosed (hlock rfl) name hhere.2⟩
  | creating live =>
    rw [hphase] at hhere hlock
    exact hcovers (hlock rfl) [] live hhere
  | checking own live =>
    rw [hphase] at hhere hlock
    exact hcovers (hlock rfl) [] live hhere
  | recovering own due =>
    rw [hphase] at hhere hlock
    exact ⟨hcovers (hlock rfl) [] false hhere.1, hleft (hlock rfl) hhere.1 due hhere.2⟩
  | deleting own name due =>
    rw [hphase] at hhere hlock
    obtain ⟨hnone, hdue, hname, hnotdue⟩ := hhere
    exact ⟨hcovers (hlock rfl) [] false hnone, hleft (hlock rfl) hnone _ hdue, hname, hnotdue⟩
  | running own sessions =>
    rw [hphase] at hhere
    exact hhere
  | dropping own name sessions =>
    rw [hphase] at hhere
    exact hhere
  | withdrawing own =>
    rw [hphase] at hhere
    exact hhere
  | withdrawn own =>
    rw [hphase] at hhere
    exact hhere
  | new | unlocking | leaving | gone | crashed => trivial

/-- An action that keeps its guarantee, and comes to a place with what is known there. -/
theorem Inv.move {phase' : Phase} {directory' : Directory} (h : system.Inv)
    (hg : Guarantee worker (system.phase worker) phase' system.directory directory')
    (hhere : (system.move worker (phase', directory')).Here worker phase') :
    (system.move worker (phase', directory')).Inv := by
  have hthis : (system.move worker (phase', directory')).phase worker = phase' :=
    Function.update_self ..
  have hother : ∀ other, other ≠ worker →
      (system.move worker (phase', directory')).phase other = system.phase other :=
    fun other hne => Function.update_of_ne hne ..
  refine ⟨fun other hstartup => ?_, fun other marker hmarker => ?_,
    fun name file other hfile hopen => ?_,
    fun name file other hfile hname hcreator => ?_, fun other => ?_⟩
  · by_cases hne : other = worker
    · subst hne
      rw [hthis] at hstartup
      exact hg.lock hstartup
    · rw [hother other hne] at hstartup
      exact hg.lockKept other hne (h.lock other hstartup)
  · by_cases hne : other = worker
    · subst hne
      rw [hthis] at hmarker
      exact hg.own marker hmarker
    · rw [hother other hne] at hmarker
      obtain ⟨hname, file, hfile, hopen, hplain⟩ := h.own other marker hmarker
      exact ⟨hname, file, hg.keeps marker file other hne hfile hopen, hopen, hplain⟩
  · by_cases hne : other = worker
    · subst hne
      rw [hthis]
      exact hg.mine name file hfile hopen
    · rw [hother other hne]
      exact h.handle name file other (hg.handles name file other hne hfile hopen) hopen
  · rcases hg.creator name file other hfile hname hcreator with ⟨file, hold, hcreator⟩ | ⟨rfl, hnow⟩
    · obtain ⟨hstartup, hnew⟩ := h.creator name file other hold hname hcreator
      by_cases hne : other = worker
      · subst hne
        rw [hthis]
        exact hg.started hstartup hnew
      · rw [hother other hne]
        exact ⟨hstartup, hnew⟩
    · rw [hthis]
      exact hnow
  · by_cases hne : other = worker
    · subst hne
      rw [hthis]
      exact hhere
    · rw [hother other hne]
      exact h.here_other hne hg

/-! ### The kinds of actions -/

section Kinds
variable {phase' : Phase} {name : FileName}

theorem put_files_self (file : File) (directory : Directory) :
    (directory.put name file).files name = some file := Function.update_self ..

theorem put_files_of_ne {name' : FileName} (h : name' ≠ name) (file : File)
    (directory : Directory) :
    (directory.put name file).files name' = directory.files name' := Function.update_of_ne h ..

theorem remove_files_self (directory : Directory) : (directory.remove name).files name = none :=
  Function.update_self ..

theorem remove_files_of_ne {name' : FileName} (h : name' ≠ name) (directory : Directory) :
    (directory.remove name).files name' = directory.files name' := Function.update_of_ne h ..

/-- Nobody but the holder of the lock starts. -/
theorem Inv.not_startup (h : system.Inv) {other : WorkerId} (hother : other ≠ worker)
    (hlock : system.directory.lock = some other) : (system.phase worker).startup = false := by
  by_contra hstartup
  have hheld := h.lock worker (by simpa using hstartup)
  rw [hlock] at hheld
  exact hother (Option.some.inj hheld)

theorem Inv.sameFiles (h : system.Inv) {lock : Option WorkerId}
    (hown : phase'.own = (system.phase worker).own)
    (hheld : phase'.held = (system.phase worker).held)
    (hlock : phase'.startup = true → lock = some worker)
    (hkept : ∀ other, other ≠ worker → system.directory.lock = some other → lock = some other)
    (hstarted : (system.phase worker).startup = false → system.phase worker ≠ .new →
      phase'.startup = false ∧ phase' ≠ .new) :
    Guarantee worker (system.phase worker) phase' system.directory
      { system.directory with lock := lock } where
  keeps _ _ _ _ hfile _ := hfile
  handles _ _ _ _ hfile _ := hfile
  mine name file hfile hopen := by
    rw [hown, hheld]
    exact h.handle name file worker hfile hopen
  own marker hmarker := h.own worker marker (hown ▸ hmarker)
  lock := hlock
  lockKept := hkept
  creator _ file _ hfile _ hcreator := .inl ⟨file, hfile, hcreator⟩
  started := hstarted
  calmHandles _ _ _ _ _ hfile _ := hfile
  calmOwn _ _ _ _ hmarker := hown ▸ hmarker
  calmHits _ _ _ _ _ _ := rfl

theorem Inv.same (h : system.Inv) (hown : phase'.own = (system.phase worker).own)
    (hheld : phase'.held = (system.phase worker).held)
    (hstartup : phase'.startup = true → (system.phase worker).startup = true)
    (hnew : phase' ≠ .new) :
    Guarantee worker (system.phase worker) phase' system.directory system.directory :=
  h.sameFiles hown hheld (fun hstarts => h.lock worker (hstartup hstarts)) (fun _ _ hlock => hlock)
    fun hnot _ => ⟨Bool.eq_false_iff.mpr fun hstarts => by simp [hstartup hstarts] at hnot, hnew⟩

/-- A file that no handle is open to is written, or is there from now on. -/
theorem Inv.put (h : system.Inv) {file : File}
    (hfree : ∀ old, system.directory.files name = some old → old.handle = none)
    (hmine : file.handle = some worker →
      isQueryActiveMarkerName name = true ∧ (phase'.own = some name ∨ phase'.held = some name))
    (hnobody : ∀ other, other ≠ worker → file.handle ≠ some other)
    (hcreator : parseOwnerFromName name ≠ none → ∀ other, file.creator = some other →
      (∃ old, system.directory.files name = some old ∧ old.creator = some other) ∨
        other = worker ∧ phase'.startup = false ∧ phase' ≠ .new)
    (hown : ∀ marker, phase'.own = some marker → (system.phase worker).own = some marker ∨
      marker = name ∧ isQueryActiveMarkerName name = true ∧ file.handle = some worker ∧
        file.plain = true)
    (hkeeps : ∀ other, (system.phase worker).own = some other ∨
      (system.phase worker).held = some other → phase'.own = some other ∨ phase'.held = some other)
    (hstartup : phase'.startup = (system.phase worker).startup) (hnew : phase' ≠ .new)
    (hcalm : (system.phase worker).startup = true ∨ file.handle = none ∧
      (system.phase worker).own ≠ none ∧ phase'.own = (system.phase worker).own) :
    Guarantee worker (system.phase worker) phase' system.directory
      (system.directory.put name file) := by
  have hcases : ∀ {name' file'}, (system.directory.put name file).files name' = some file' →
      name' = name ∧ file' = file ∨ name' ≠ name ∧ system.directory.files name' = some file' := by
    intro name' file' hfile
    by_cases hname : name' = name
    · subst hname
      rw [put_files_self] at hfile
      exact .inl ⟨rfl, (Option.some.inj hfile).symm⟩
    · rw [put_files_of_ne hname] at hfile
      exact .inr ⟨hname, hfile⟩
  have hstays : ∀ {name' file' user}, system.directory.files name' = some file' →
      file'.handle = some user → (system.directory.put name file).files name' = some file' := by
    intro name' file' user hfile hopen
    have hname : name' ≠ name := by
      rintro rfl
      rw [hfree file' hfile] at hopen
      cases hopen
    rw [put_files_of_ne hname, hfile]
  have hbusy : ∀ other, other ≠ worker → system.directory.lock = some other →
      file.handle = none ∧ (system.phase worker).own ≠ none ∧
        phase'.own = (system.phase worker).own := by
    intro other hother hlock
    rcases hcalm with hstarts | hquiet
    · rw [h.not_startup hother hlock] at hstarts
      cases hstarts
    · exact hquiet
  refine ⟨fun _ _ _ _ hfile hopen => hstays hfile hopen, ?_, ?_, ?_, ?_, fun _ _ hlock => hlock, ?_,
    ?_,
    ?_, ?_, ?_⟩
  · intro name' file' other hother hfile hopen
    rcases hcases hfile with ⟨rfl, rfl⟩ | ⟨-, hold⟩
    · exact absurd hopen (hnobody other hother)
    · exact hold
  · intro name' file' hfile hopen
    rcases hcases hfile with ⟨rfl, rfl⟩ | ⟨-, hold⟩
    · exact hmine hopen
    · obtain ⟨hmarker, hphase⟩ := h.handle name' file' worker hold hopen
      exact ⟨hmarker, hkeeps name' hphase⟩
  · intro marker hmarker
    rcases hown marker hmarker with hold | ⟨rfl, hname, hopen, hplain⟩
    · obtain ⟨hname, file', hfile, hopen, hplain⟩ := h.own worker marker hold
      exact ⟨hname, file', hstays hfile hopen, hopen, hplain⟩
    · exact ⟨hname, file, put_files_self .., hopen, hplain⟩
  · intro hstarts
    exact h.lock worker (hstartup ▸ hstarts)
  · intro name' file' other hfile hname hcreated
    rcases hcases hfile with ⟨rfl, rfl⟩ | ⟨-, hold⟩
    · exact hcreator hname other hcreated
    · exact .inl ⟨file', hold, hcreated⟩
  · intro hnot _
    exact ⟨hstartup.trans hnot, hnew⟩
  · intro other hother hlock name' file' hfile hopen
    rcases hcases hfile with ⟨rfl, rfl⟩ | ⟨-, hold⟩
    · exact absurd (hbusy other hother hlock).1 hopen
    · exact hold
  · intro other hother hlock marker hmarker
    rw [← (hbusy other hother hlock).2.2]
    exact hmarker
  · intro other hother hlock hidle
    exact absurd hidle (hbusy other hother hlock).2.1

/-- A file that no handle is open to is removed. -/
theorem Inv.remove (h : system.Inv)
    (hfree : ∀ old, system.directory.files name = some old → old.handle = none)
    (hown : phase'.own = (system.phase worker).own)
    (hheld : phase'.held = (system.phase worker).held)
    (hstartup : phase'.startup = true → (system.phase worker).startup = true) (hnew : phase' ≠ .new)
    (hcalm : (system.phase worker).startup = true ∨ isQueryActiveMarkerName name = true ∨
      (system.phase worker).own ≠ none) :
    Guarantee worker (system.phase worker) phase' system.directory
      (system.directory.remove name) := by
  have hsame := h.same hown hheld hstartup hnew
  have hold : ∀ {name' file'}, (system.directory.remove name).files name' = some file' →
      system.directory.files name' = some file' := by
    intro name' file' hfile
    by_cases hname : name' = name
    · subst hname
      rw [remove_files_self] at hfile
      cases hfile
    · rwa [remove_files_of_ne hname] at hfile
  have hstays : ∀ {name' file' user}, system.directory.files name' = some file' →
      file'.handle = some user → (system.directory.remove name).files name' = some file' := by
    intro name' file' user hfile hopen
    have hname : name' ≠ name := by
      rintro rfl
      rw [hfree file' hfile] at hopen
      cases hopen
    rw [remove_files_of_ne hname, hfile]
  refine ⟨fun _ _ _ _ hfile hopen => hstays hfile hopen, fun _ _ _ _ hfile _ => hold hfile,
    fun name' file' hfile => hsame.mine name' file' (hold hfile), fun marker hmarker => ?_,
      hsame.lock,
    hsame.lockKept, fun name' file' other hfile => hsame.creator name' file' other (hold hfile),
    hsame.started, fun _ _ _ _ _ hfile _ => hold hfile, hsame.calmOwn, ?_⟩
  · obtain ⟨hname, file', hfile, hopen, hplain⟩ := hsame.own marker hmarker
    exact ⟨hname, file', hstays hfile hopen, hopen, hplain⟩
  · intro other hother hlock hidle name' hname'
    rcases hcalm with hstarts | hmarker | hbusy
    · rw [h.not_startup hother hlock] at hstarts
      cases hstarts
    · have hne : name' ≠ name := by
        rintro rfl
        exact hname' (parseOwner_marker hmarker)
      rw [remove_files_of_ne hne]
    · exact absurd hidle hbusy

/-- The worker closes the one handle it has. -/
theorem Inv.close (h : system.Inv)
    (honly : ∀ other, (system.phase worker).own = some other ∨
      (system.phase worker).held = some other → other = name)
    (hmarker : isQueryActiveMarkerName name = true)
    (hown : phase'.own = none)
    (hstartup : phase'.startup = true → (system.phase worker).startup = true)
    (hnew : phase' ≠ .new) :
    Guarantee worker (system.phase worker) phase' system.directory
      (system.directory.close worker name) := by
  have hne : ∀ {name'}, name' ≠ name →
      (system.directory.close worker name).files name' = system.directory.files name' :=
    fun hname => Function.update_of_ne hname ..
  have hself : (system.directory.close worker name).files name =
      (system.directory.files name).map fun file =>
        if file.handle = some worker then { file with handle := none } else file :=
    Function.update_self ..
  have hback : ∀ {name' file'}, (system.directory.close worker name).files name' = some file' →
      file'.handle ≠ none → system.directory.files name' = some file' := by
    intro name' file' hfile hopen
    by_cases hname : name' = name
    · subst hname
      rw [hself] at hfile
      obtain ⟨old, hold, rfl⟩ := Option.map_eq_some_iff.mp hfile
      by_cases hmine : old.handle = some worker
      · rw [if_pos hmine] at hopen
        exact absurd rfl hopen
      · rw [if_neg hmine]
        exact hold
    · rwa [hne hname] at hfile
  have hcreators : ∀ {name' file' other},
    (system.directory.close worker name).files name' = some file' →
      file'.creator = some other →
      ∃ old, system.directory.files name' = some old ∧ old.creator = some other := by
    intro name' file' other hfile hcreator
    by_cases hname : name' = name
    · subst hname
      rw [hself] at hfile
      obtain ⟨old, hold, rfl⟩ := Option.map_eq_some_iff.mp hfile
      refine ⟨old, hold, ?_⟩
      split_ifs at hcreator
      · exact hcreator
      · exact hcreator
    · rw [hne hname] at hfile
      exact ⟨file', hfile, hcreator⟩
  have hnone : ∀ {name' file'}, (system.directory.close worker name).files name' = some file' →
      file'.handle ≠ some worker := by
    intro name' file' hfile hopen
    have hold := hback hfile (by rw [hopen]; simp)
    obtain ⟨-, hphase⟩ := h.handle name' file' worker hold hopen
    obtain rfl := honly name' hphase
    rw [hself, hold, Option.map_some, if_pos hopen] at hfile
    rw [← Option.some.inj hfile] at hopen
    cases hopen
  refine ⟨fun name' file' other hother hfile hopen => ?_, fun name' file' other _ hfile hopen =>
    hback hfile (by rw [hopen]; simp), fun _ _ hfile hopen => absurd hopen (hnone hfile),
    fun marker hm => ?_, fun hstarts => h.lock worker (hstartup hstarts), fun _ _ hlock => hlock,
    fun _ _ _ hfile _ hcreator => .inl (hcreators hfile hcreator), fun hnot _ => ⟨?_, hnew⟩,
    fun _ _ _ _ _ hfile hopen => hback hfile hopen, fun _ _ _ marker hm => ?_, ?_⟩
  · by_cases hname : name' = name
    · subst hname
      have hnot : ¬ file'.handle = some worker := by
        rw [hopen]
        exact fun heq => hother (Option.some.inj heq)
      rw [hself, hfile, Option.map_some, if_neg hnot]
    · rw [hne hname, hfile]
  · rw [hown] at hm
    cases hm
  · by_contra hstarts
    rw [hstartup (by simpa using hstarts)] at hnot
    cases hnot
  · rw [hown] at hm
    cases hm
  · intro other hother hlock hidle name' hname'
    refine hne ?_
    rintro rfl
    exact hname' (parseOwner_marker hmarker)

end Kinds

end System

end LeanRows.QueryCache
