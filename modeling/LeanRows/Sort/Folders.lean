import Mathlib

/-!
# The folders of sorts

Each sort has its files in a folder of its own and the lock file of the folder open without
sharing. A program that starts removes the folders whose lock nobody has open. Programs start, sort
and end in any order, each action on a folder being one of its own. A folder is named by the number
of its process and a counter, and the number of a process is taken to be given once.
-/

set_option autoImplicit false

namespace LeanRows.Sort.Folders

/-! ## Folders -/

abbrev Name := List Char

def folderPrefix : Name :=
  ['l', 'e', 'a', 'n', 'r', 'o', 'w', 's', '-', 's', 'o', 'r', 't', '-', 'v', '1', '-']

def lockName : Name := ['o', 'w', 'n', 'e', 'r', '.', 'l', 'o', 'c', 'k']

inductive Party where
  | owner (id : Nat)
  | recovery (id : Nat)
deriving DecidableEq

/-- `lock` is the lock file, if there is one, with the one who has it open; `ordinary` is false of
a link. -/
structure Folder where
  ordinary : Bool
  lock : Option (Option Party)
  files : List Name
deriving DecidableEq

/-- A handle that is closed leaves its lock file. -/
def closed (party : Party) (f : Folder) : Folder :=
  if f.lock = some (some party) then { f with lock := some none } else f

abbrev Directory := Name → Option Folder

namespace Directory
variable (directory : Directory) (name : Name)

def put (folder : Option Folder) : Directory := Function.update directory name folder

/-- A handle is closed. -/
def close (party : Party) : Directory :=
  directory.put name ((directory name).map (closed party))

/-- All handles are, when a program ends. -/
def release (party : Party) : Directory := fun name => directory.close name party name

/-- `fs::remove_file` of an entry. What is open without sharing is not removed. -/
def unlink (entry : Name) : Option Directory :=
  match directory name with
  | none => none
  | some folder =>
    if entry = lockName then
      if folder.lock = some none then some (directory.put name (some { folder with lock := none }))
      else none
    else if folder.files.contains entry then
      some (directory.put name (some { folder with files := folder.files.filter (· ≠ entry) }))
    else none

/-- `fs::remove_dir`, of an empty folder. -/
def removeDir : Option Directory :=
  match directory name with
  | none => none
  | some folder =>
    if folder.lock = none ∧ folder.files = [] then some (directory.put name none) else none

end Directory

namespace Directory
variable {directory directory' : Directory} {name other : Name} {folder : Option Folder}

@[simp] theorem put_self : directory.put name folder name = folder := Function.update_self ..

theorem put_other (h : other ≠ name) : directory.put name folder other = directory other :=
  Function.update_of_ne h ..

theorem close_self (party : Party) :
    directory.close name party name = (directory name).map (closed party) := put_self

/-- A removal takes the lock that nobody has open, or one file. -/
theorem unlink_spec {entry : Name} (h : directory.unlink name entry = some directory') :
    ∃ f f', directory name = some f ∧ directory' = directory.put name (some f') ∧
      ((entry = lockName ∧ f.lock = some none ∧ f' = { f with lock := none }) ∨
        (entry ≠ lockName ∧ f' = { f with files := f.files.filter (· ≠ entry) })) := by
  unfold unlink at h
  split at h
  · cases h
  · next f hf =>
    split_ifs at h with hlock hopen hin
    · cases h
      exact ⟨f, _, hf, rfl, .inl ⟨hlock, hopen, rfl⟩⟩
    · cases h
      exact ⟨f, _, hf, rfl, .inr ⟨hlock, rfl⟩⟩

theorem removeDir_spec (h : directory.removeDir name = some directory') :
    ∃ f, directory name = some f ∧ directory' = directory.put name none := by
  unfold removeDir at h
  split at h
  · cases h
  · next f hf =>
    split_ifs at h
    cases h
    exact ⟨f, hf, rfl⟩

/-- Where a removal works or not, the other folders stay. -/
theorem unlink_other {entry : Name} (h : other ≠ name) :
    (directory.unlink name entry).getD directory other = directory other := by
  cases hunlink : directory.unlink name entry with
  | none => rfl
  | some directory' =>
    obtain ⟨f, f', -, rfl, -⟩ := unlink_spec hunlink
    exact put_other h

theorem removeDir_other (h : other ≠ name) :
    (directory.removeDir name).getD directory other = directory other := by
  cases hremove : directory.removeDir name with
  | none => rfl
  | some directory' =>
    obtain ⟨f, -, rfl⟩ := removeDir_spec hremove
    exact put_other h

end Directory

/-! ## Owners -/

/-- Where an owner stands. `gone` and `crashed` say whether it has begun to remove its folder. -/
inductive Owner where
  | new
  | made (name : Name)
  | active (name : Name)
  | dropping (name : Name)
  | gone (dropped : Bool)
  | crashed (dropped : Bool)

/-- Whether it has begun to remove its folder. -/
def Owner.dropped : Owner → Bool
  | .dropping _ => true
  | .gone dropped => dropped
  | .crashed dropped => dropped
  | _ => false

/-- What an owner does next, and whether a removal works. -/
inductive OwnerChoice where
  | create (name : Name)
  | lock
  | add (file : Name)
  | delete (file : Name)
  | drop
  | remove (entry : Name)
  | finish
  | leave

/-- One action of an owner on the folders. A name is of one owner only. -/
def ownerAct (owns : Name → Nat) (owner : Nat) (choice : OwnerChoice) (directory : Directory) :
    Owner → Owner × Directory
  | .new =>
    match choice with
    | .create name =>
      if owns name = owner ∧ folderPrefix.isPrefixOf name ∧ directory name = none then
        (.made name, directory.put name (some ⟨true, none, []⟩))
      else (.new, directory)
    | _ => (.new, directory)
  | .made name =>
    match choice with
    | .lock =>
      match directory name with
      | none => (.gone false, directory)
      | some folder =>
        if folder.lock = none then
          (.active name,
            directory.put name (some { folder with lock := some (some (.owner owner)) }))
        else (.gone false, directory)
    | .leave => (.gone false, directory)
    | _ => (.made name, directory)
  | .active name =>
    match choice with
    | .add file =>
      match directory name with
      | none => (.active name, directory)
      | some folder =>
        if file = lockName ∨ folder.files.contains file then (.active name, directory)
        else (.active name, directory.put name (some { folder with files := file :: folder.files }))
    | .delete file =>
      if file = lockName then (.active name, directory)
      else (.active name, (directory.unlink name file).getD directory)
    | .drop => (.dropping name, directory.close name (.owner owner))
    | _ => (.active name, directory)
  | .dropping name =>
    match choice with
    | .remove entry => (.dropping name, (directory.unlink name entry).getD directory)
    | .finish =>
      match directory.removeDir name with
      | none => (.dropping name, directory)
      | some directory => (.gone true, directory)
    | .leave => (.gone true, directory)
    | _ => (.dropping name, directory)
  | .gone dropped => (.gone dropped, directory)
  | .crashed dropped => (.crashed dropped, directory)

/-! ## Recoveries -/

/-- Where a recovery stands; `due` is what the enumeration of a folder has still to come to. -/
inductive Recovery where
  | scanning
  | opening (name : Name)
  | holding (name : Name)
  | listing (name : Name)
  | emptying (name : Name) (due : List Name)
  | unlocking (name : Name)
  | removing (name : Name)
  | gone

/-- The name that an enumeration comes to, and whether a removal works. -/
structure RecoveryChoice where
  name : Option Name
  removes : Bool

/-- One action of `recover_stale_sort_files`. -/
def recoveryAct (recovery : Nat) (choice : RecoveryChoice) (directory : Directory) :
    Recovery → Recovery × Directory
  | .scanning =>
    match choice.name with
    | none => (.gone, directory)
    | some name =>
      if folderPrefix.isPrefixOf name ∧ (directory name).any (·.ordinary) then
        (.opening name, directory)
      else (.scanning, directory)
  | .opening name =>
    match directory name with
    | none => (.scanning, directory)
    | some folder =>
      if folder.lock = some none then
        (.holding name,
          directory.put name (some { folder with lock := some (some (.recovery recovery)) }))
      else (.scanning, directory)
  | .holding name => (.listing name, directory.close name (.recovery recovery))
  | .listing name =>
    match directory name with
    | none => (.scanning, directory)
    | some folder => (.emptying name folder.files, directory)
  | .emptying name due =>
    match choice.name with
    | none =>
      -- an entry that is there since the start of the enumeration is come to
      if (directory name).any fun folder => folder.files.any due.contains then
        (.emptying name due, directory)
      else (.unlocking name, directory)
    | some entry =>
      if entry = lockName then (.emptying name due, directory)
      else
        match choice.removes, directory.unlink name entry with
        | true, some directory => (.emptying name (due.filter (· ≠ entry)), directory)
        | _, _ => (.scanning, directory)
  | .unlocking name =>
    match directory.unlink name lockName with
    | none => (.scanning, directory)
    | some directory => (.removing name, directory)
  | .removing name => (.scanning, (directory.removeDir name).getD directory)
  | .gone => (.gone, directory)

/-! ## The system -/

structure System where
  owner : Nat → Owner
  recovery : Nat → Recovery
  directory : Directory

namespace System

def actOwner (owns : Name → Nat) (owner : Nat) (choice : OwnerChoice) (s : System) : System :=
  let next := ownerAct owns owner choice s.directory (s.owner owner)
  { s with owner := Function.update s.owner owner next.1, directory := next.2 }

def actRecovery (recovery : Nat) (choice : RecoveryChoice) (s : System) : System :=
  let next := recoveryAct recovery choice s.directory (s.recovery recovery)
  { s with recovery := Function.update s.recovery recovery next.1, directory := next.2 }

def crash (party : Party) (s : System) : System :=
  match party with
  | .owner owner => { s with
      owner := Function.update s.owner owner (.crashed (s.owner owner).dropped)
      directory := s.directory.release party }
  | .recovery recovery => { s with
      recovery := Function.update s.recovery recovery .gone
      directory := s.directory.release party }

/-- Nobody has sorted yet. -/
def start : System := ⟨fun _ => .new, fun _ => .scanning, fun _ => none⟩

inductive Step (owns : Name → Nat) : System → System → Prop where
  | owner (s : System) (owner : Nat) (choice : OwnerChoice) :
      Step owns s (s.actOwner owns owner choice)
  | recovery (s : System) (recovery : Nat) (choice : RecoveryChoice) :
      Step owns s (s.actRecovery recovery choice)
  | crash (s : System) (party : Party) : Step owns s (s.crash party)

inductive Reachable (owns : Name → Nat) : System → Prop where
  | start : Reachable owns start
  | step {s s' : System} : Reachable owns s → Step owns s s' → Reachable owns s'

end System

/-! ## What holds of a folder -/

namespace Owner

/-- The folder that an owner is at. -/
def At (name : Name) : Owner → Prop
  | .made n | .active n | .dropping n => n = name
  | _ => False

/-- It does not sort any more. -/
def Past : Owner → Prop
  | .new | .made _ | .active _ => False
  | _ => True

/-- It may have made that folder. -/
def MayHave (name : Name) : Owner → Prop
  | .new => False
  | .made n | .active n | .dropping n => n = name
  | .gone _ | .crashed _ => True

end Owner

/-- The folder that a recovery is at. -/
def Recovery.At (name : Name) : Recovery → Prop
  | .opening n | .holding n | .listing n | .emptying n _ | .unlocking n | .removing n => n = name
  | _ => False

/-- A recovery has opened the lock of that folder. -/
def Recovery.Touches (name : Name) : Recovery → Prop
  | .holding n | .listing n | .emptying n _ | .unlocking n | .removing n => n = name
  | _ => False

/-- What holds of a folder, of its owner and of the recoveries. -/
structure Fits (owner : Owner) (recovery : Nat → Recovery) (folder : Option Folder) (id : Nat)
    (name : Name) : Prop where
  has : ∀ f, folder = some f → owner.MayHave name
  made : owner = .made name → folder = some ⟨true, none, []⟩
  active : owner = .active name → ∃ f, folder = some f ∧ f.lock = some (some (.owner id))
  touched : ∀ r, (recovery r).Touches name → owner.Past
  due : ∀ r due, recovery r = .emptying name due → ∀ f, folder = some f → f.files ⊆ due
  unlocking : ∀ r, recovery r = .unlocking name → ∀ f, folder = some f → f.files = []
  locked : ∀ f, folder = some f → f.files ≠ [] → f.lock ≠ none ∨ owner.dropped = true

structure Inv (owns : Name → Nat) (s : System) : Prop where
  owned : ∀ id name, (s.owner id).At name → owns name = id
  fits : ∀ name, Fits (s.owner (owns name)) s.recovery (s.directory name) (owns name) name

section Local
variable {owner : Owner} {recovery : Nat → Recovery} {folder folder' : Option Folder} {id : Nat}
  {name : Name}

/-- A lock that nobody has open is of an owner that does not sort any more. -/
theorem Fits.past (h : Fits owner recovery folder id name) {f : Folder} (hf : folder = some f)
    (hlock : f.lock = some none) : owner.Past := by
  have hhas := h.has f hf
  cases owner with
  | new => exact hhas
  | made n =>
    obtain rfl : n = name := hhas
    rw [h.made rfl, Option.some.injEq] at hf
    rw [← hf] at hlock
    cases hlock
  | active n =>
    obtain rfl : n = name := hhas
    obtain ⟨g, hg, hopen⟩ := h.active rfl
    rw [hg, Option.some.injEq] at hf
    rw [← hf, hopen] at hlock
    cases hlock
  | dropping n => trivial
  | gone dropped => trivial
  | crashed dropped => trivial

/-- An owner that does not sort any more, and a folder that has become smaller. -/
theorem Fits.shrink (h : Fits owner recovery folder id name) {owner' : Owner} (hpast : owner'.Past)
    (hhas : ∀ f, folder' = some f → owner'.MayHave name)
    (hfiles : ∀ f', folder' = some f' → ∃ f, folder = some f ∧ f'.files ⊆ f.files)
    (hlocked : ∀ f', folder' = some f' → f'.files ≠ [] → f'.lock ≠ none ∨ owner'.dropped = true) :
    Fits owner' recovery folder' id name :=
  { has := hhas
    made := fun heq => by rw [heq] at hpast; exact hpast.elim
    active := fun heq => by rw [heq] at hpast; exact hpast.elim
    touched := fun _ _ => hpast
    due := fun r due hr f' hf' => by
      obtain ⟨f, hf, hsub⟩ := hfiles f' hf'
      exact fun x hx => h.due r due hr f hf (hsub hx)
    unlocking := fun r hr f' hf' => by
      obtain ⟨f, hf, hsub⟩ := hfiles f' hf'
      rw [h.unlocking r hr f hf] at hsub
      exact List.subset_nil.mp hsub
    locked := hlocked }

theorem closed_files (party : Party) (f : Folder) : (closed party f).files = f.files := by
  unfold closed
  split_ifs <;> rfl

theorem closed_lock {party : Party} {f : Folder} (h : f.lock ≠ none) :
    (closed party f).lock ≠ none := by
  unfold closed
  split_ifs
  · exact Option.some_ne_none _
  · exact h

theorem closed_eq {party : Party} {f : Folder} (h : f.lock ≠ some (some party)) :
    closed party f = f := if_neg h

theorem Fits.close_past (h : Fits owner recovery folder id name) {owner' : Owner}
    (hpast : owner'.Past) (hhas : owner.MayHave name → owner'.MayHave name)
    (hdropped : owner.dropped = true → owner'.dropped = true) (party : Party) :
    Fits owner' recovery (folder.map (closed party)) id name := by
  refine h.shrink hpast (fun f' hf' => ?_) (fun f' hf' => ?_) (fun f' hf' hne => ?_)
  · obtain ⟨f, hf, -⟩ := Option.map_eq_some_iff.mp hf'
    exact hhas (h.has f hf)
  · obtain ⟨f, hf, rfl⟩ := Option.map_eq_some_iff.mp hf'
    rw [closed_files]
    exact ⟨f, hf, fun _ hx => hx⟩
  · obtain ⟨f, hf, rfl⟩ := Option.map_eq_some_iff.mp hf'
    rw [closed_files] at hne
    exact (h.locked f hf hne).imp closed_lock hdropped

/-- A handle of anybody but the owner. -/
theorem Fits.close (h : Fits owner recovery folder id name) {party : Party}
    (hparty : party ≠ .owner id) : Fits owner recovery (folder.map (closed party)) id name := by
  by_cases hpast : owner.Past
  · exact h.close_past hpast (fun hhas => hhas) (fun hdropped => hdropped) party
  · have hsame : folder.map (closed party) = folder := by
      cases hfolder : folder with
      | none => rfl
      | some f =>
        have hlock : f.lock ≠ some (some party) := by
          have hhas := h.has f hfolder
          cases owner with
          | new => exact hhas.elim
          | made n =>
            obtain rfl : n = name := hhas
            have hmade := h.made rfl
            rw [hfolder, Option.some.injEq] at hmade
            rw [hmade]
            exact fun heq => by cases heq
          | active n =>
            obtain rfl : n = name := hhas
            obtain ⟨g, hg, hopen⟩ := h.active rfl
            rw [hfolder, Option.some.injEq] at hg
            rw [hg, hopen]
            exact fun heq => hparty (Option.some.inj (Option.some.inj heq)).symm
          | dropping n => exact absurd trivial hpast
          | gone dropped => exact absurd trivial hpast
          | crashed dropped => exact absurd trivial hpast
        rw [Option.map_some, closed_eq hlock]
    rw [hsame]
    exact h

/-- Another recovery where one was. -/
theorem Fits.turn (h : Fits owner recovery folder id name) {r : Nat} {next : Recovery}
    (htouched : next.Touches name → owner.Past)
    (hdue : ∀ due, next = .emptying name due → ∀ f, folder = some f → f.files ⊆ due)
    (hunlocking : next = .unlocking name → ∀ f, folder = some f → f.files = []) :
    Fits owner (Function.update recovery r next) folder id name :=
  { has := h.has
    made := h.made
    active := h.active
    touched := fun r' hr' => by
      rw [Function.update_apply] at hr'
      split_ifs at hr'
      · exact htouched hr'
      · exact h.touched r' hr'
    due := fun r' due hr' => by
      rw [Function.update_apply] at hr'
      split_ifs at hr'
      · exact hdue due hr'
      · exact h.due r' due hr'
    unlocking := fun r' hr' => by
      rw [Function.update_apply] at hr'
      split_ifs at hr'
      · exact hunlocking hr'
      · exact h.unlocking r' hr'
    locked := h.locked }

/-- A recovery that does not come to this folder. -/
theorem Fits.elsewhere (h : Fits owner recovery folder id name) {r : Nat} {next : Recovery}
    (hfolder : folder' = folder) (hnot : ¬ next.Touches name) :
    Fits owner (Function.update recovery r next) folder' id name := by
  subst hfolder
  refine h.turn (fun htouches => absurd htouches hnot) (fun due heq => ?_) (fun heq => ?_)
  · rw [heq] at hnot
    exact absurd rfl hnot
  · rw [heq] at hnot
    exact absurd rfl hnot

end Local

/-! ## Recoveries keep it -/

section Recoveries
variable {owner : Owner} {recovery : Nat → Recovery} {id r : Nat} {name n : Name}
  {choice : RecoveryChoice} {directory : Directory}

/-- A folder that a recovery is not at stays, and it has not opened its lock afterwards. -/
theorem recoveryAct_elsewhere (r : Nat) (choice : RecoveryChoice) (directory : Directory)
    {phase : Recovery} (hat : ¬ phase.At name) :
    (recoveryAct r choice directory phase).2 name = directory name ∧
      ¬ (recoveryAct r choice directory phase).1.Touches name := by
  cases phase with
  | gone => exact ⟨rfl, fun hno => hno⟩
  | scanning =>
    dsimp only [recoveryAct]
    split
    · exact ⟨rfl, fun hno => hno⟩
    · split_ifs <;> exact ⟨rfl, fun hno => hno⟩
  | opening n =>
    dsimp only [recoveryAct]
    split
    · exact ⟨rfl, fun hno => hno⟩
    · split_ifs
      · exact ⟨Directory.put_other (Ne.symm hat), hat⟩
      · exact ⟨rfl, fun hno => hno⟩
  | holding n => exact ⟨Directory.put_other (Ne.symm hat), hat⟩
  | listing n =>
    dsimp only [recoveryAct]
    split
    · exact ⟨rfl, fun hno => hno⟩
    · exact ⟨rfl, hat⟩
  | emptying n due =>
    dsimp only [recoveryAct]
    split
    · split_ifs <;> exact ⟨rfl, hat⟩
    · split_ifs
      · exact ⟨rfl, hat⟩
      · split
        · next hunlink =>
          obtain ⟨f, f', -, rfl, -⟩ := Directory.unlink_spec hunlink
          exact ⟨Directory.put_other (Ne.symm hat), hat⟩
        · exact ⟨rfl, fun hno => hno⟩
  | unlocking n =>
    dsimp only [recoveryAct]
    split
    · exact ⟨rfl, fun hno => hno⟩
    · next hunlink =>
      obtain ⟨f, f', -, rfl, -⟩ := Directory.unlink_spec hunlink
      exact ⟨Directory.put_other (Ne.symm hat), hat⟩
  | removing n => exact ⟨Directory.removeDir_other (Ne.symm hat), fun hno => hno⟩

theorem recoveryAct_fits (h : Fits owner recovery (directory name) id name) :
    Fits owner (Function.update recovery r (recoveryAct r choice directory (recovery r)).1)
      ((recoveryAct r choice directory (recovery r)).2 name) id name := by
  by_cases hat : (recovery r).At name
  swap
  · obtain ⟨hsame, hnot⟩ := recoveryAct_elsewhere r choice directory hat
    exact h.elsewhere hsame hnot
  cases hphase : recovery r with
  | scanning =>
    rw [hphase] at hat
    exact hat.elim
  | gone =>
    rw [hphase] at hat
    exact hat.elim
  | opening n =>
    obtain rfl : name = n := by rw [hphase] at hat; exact hat.symm
    dsimp only [recoveryAct]
    split
    · exact h.elsewhere rfl (fun hno => hno)
    · next f hf =>
      split_ifs with hlock
      · have hpast := h.past hf hlock
        have hheld : Fits owner recovery
            (some { f with lock := some (some (.recovery r)) }) id name := by
          refine h.shrink hpast (fun _ _ => h.has f hf) (fun f' hf' => ⟨f, hf, ?_⟩)
            (fun f' hf' _ => .inl ?_)
          · cases hf'
            exact fun _ hx => hx
          · cases hf'
            exact Option.some_ne_none _
        dsimp only
        rw [Directory.put_self]
        exact hheld.turn (fun _ => hpast) (fun _ heq => by cases heq) (fun heq => by cases heq)
      · exact h.elsewhere rfl (fun hno => hno)
  | holding n =>
    obtain rfl : name = n := by rw [hphase] at hat; exact hat.symm
    have hpast := h.touched r (by rw [hphase]; rfl)
    dsimp only [recoveryAct]
    rw [Directory.close_self]
    exact (h.close (by exact Party.noConfusion)).turn (fun _ => hpast) (fun _ heq => by cases heq)
      (fun heq => by cases heq)
  | listing n =>
    obtain rfl : name = n := by rw [hphase] at hat; exact hat.symm
    have hpast := h.touched r (by rw [hphase]; rfl)
    dsimp only [recoveryAct]
    split
    · exact h.elsewhere rfl (fun hno => hno)
    · next f hf =>
      refine h.turn (fun _ => hpast) (fun due heq f' hf' => ?_) (fun heq => by cases heq)
      cases heq
      rw [hf, Option.some.injEq] at hf'
      rw [hf']
      exact fun _ hx => hx
  | emptying n due =>
    obtain rfl : name = n := by rw [hphase] at hat; exact hat.symm
    have hpast := h.touched r (by rw [hphase]; rfl)
    have hdue := h.due r due hphase
    dsimp only [recoveryAct]
    split
    · split_ifs with hmore
      · exact h.turn (fun _ => hpast) (fun due' heq => by cases heq; exact hdue)
          (fun heq => by cases heq)
      · refine h.turn (fun _ => hpast) (fun _ heq => by cases heq) (fun _ f hf => ?_)
        refine List.eq_nil_iff_forall_not_mem.mpr fun x hx => hmore ?_
        rw [hf, Option.any_some, List.any_eq_true]
        exact ⟨x, hx, List.contains_iff_mem.2 (hdue f hf hx)⟩
    · next entry _ =>
      split_ifs with hlock
      · exact h.turn (fun _ => hpast) (fun due' heq => by cases heq; exact hdue)
          (fun heq => by cases heq)
      · split
        · next hunlink =>
          obtain ⟨f, f', hf, rfl, ⟨heq, -⟩ | ⟨-, rfl⟩⟩ := Directory.unlink_spec hunlink
          · exact absurd heq hlock
          · dsimp only
            rw [Directory.put_self]
            have hsmaller : Fits owner recovery
                (some { f with files := f.files.filter (· ≠ entry) }) id name := by
              refine h.shrink hpast (fun _ _ => h.has f hf) (fun f' hf' => ⟨f, hf, ?_⟩)
                (fun f' hf' hne => ?_)
              · cases hf'
                exact List.filter_subset_self _
              · cases hf'
                refine h.locked f hf fun hnil => hne ?_
                rw [hnil]
                rfl
            refine hsmaller.turn (fun _ => hpast) (fun due' heq f' hf' => ?_)
              (fun heq => by cases heq)
            cases heq
            cases hf'
            exact List.filter_subset _ (hdue f hf)
        · exact h.elsewhere rfl (fun hno => hno)
  | unlocking n =>
    obtain rfl : name = n := by rw [hphase] at hat; exact hat.symm
    have hpast := h.touched r (by rw [hphase]; rfl)
    dsimp only [recoveryAct]
    split
    · exact h.elsewhere rfl (fun hno => hno)
    · next hunlink =>
      obtain ⟨f, f', hf, rfl, ⟨-, -, rfl⟩ | ⟨hne, -⟩⟩ := Directory.unlink_spec hunlink
      · have hempty := h.unlocking r hphase f hf
        dsimp only
        rw [Directory.put_self]
        have hunlocked : Fits owner recovery (some { f with lock := none }) id name := by
          refine h.shrink hpast (fun _ _ => h.has f hf) (fun f' hf' => ⟨f, hf, ?_⟩)
            (fun f' hf' hne => ?_)
          · cases hf'
            exact fun _ hx => hx
          · cases hf'
            exact absurd hempty hne
        exact hunlocked.turn (fun _ => hpast) (fun _ heq => by cases heq)
          (fun heq => by cases heq)
      · exact absurd rfl hne
  | removing n =>
    obtain rfl : name = n := by rw [hphase] at hat; exact hat.symm
    have hpast := h.touched r (by rw [hphase]; rfl)
    dsimp only [recoveryAct]
    cases hremove : directory.removeDir name with
    | none => exact h.elsewhere rfl (fun hno => hno)
    | some directory' =>
      obtain ⟨f, hf, rfl⟩ := Directory.removeDir_spec hremove
      have hgone : Fits owner recovery none id name :=
        h.shrink hpast (fun _ hf' => by cases hf') (fun _ hf' => by cases hf')
          (fun _ hf' => by cases hf')
      rw [Option.getD_some, Directory.put_self]
      exact hgone.elsewhere rfl (fun hno => hno)

end Recoveries

/-! ## Owners keep it -/

section Owners
variable {owns : Name → Nat} {owner : Owner} {recovery : Nat → Recovery}
  {folder folder' : Option Folder} {id : Nat} {name : Name}

/-- What an owner at one folder does leaves another one alone. -/
structure Away (m : Name) (directory : Directory) (owner : Owner) (next : Owner × Directory) :
    Prop where
  same : ∀ n, n ≠ m → next.2 n = directory n
  past : owner.Past → next.1.Past
  stays : ∀ n, next.1.At n → n = m

theorem Away.keep {m : Name} {directory directory' : Directory} {owner next : Owner}
    (hsame : ∀ n, n ≠ m → directory' n = directory n) (hpast : owner.Past → next.Past)
    (hnext : ∀ n, next.At n → m = n) : Away m directory owner (next, directory') :=
  ⟨hsame, hpast, fun n hn => (hnext n hn).symm⟩

theorem ownerAct_away (owns : Name → Nat) (id : Nat) (choice : OwnerChoice)
    (directory : Directory) {m : Name} (hat : owner.At m) :
    Away m directory owner (ownerAct owns id choice directory owner) := by
  have hput : ∀ folder n, n ≠ m → directory.put m folder n = directory n :=
    fun folder n hn => Directory.put_other hn
  have hunlink : ∀ entry n, n ≠ m → (directory.unlink m entry).getD directory n = directory n :=
    fun entry n hn => Directory.unlink_other hn
  cases owner with
  | new => exact hat.elim
  | gone dropped => exact hat.elim
  | crashed dropped => exact hat.elim
  | made n =>
    obtain rfl : m = n := hat.symm
    dsimp only [ownerAct]
    split
    · split
      · exact .keep (fun _ _ => rfl) (fun _ => trivial) (fun _ hn => hn.elim)
      · split_ifs
        · exact .keep (hput _) (fun hno => hno) (fun _ hn => hn)
        · exact .keep (fun _ _ => rfl) (fun _ => trivial) (fun _ hn => hn.elim)
    · exact .keep (fun _ _ => rfl) (fun _ => trivial) (fun _ hn => hn.elim)
    · exact .keep (fun _ _ => rfl) (fun hno => hno) (fun _ hn => hn)
  | active n =>
    obtain rfl : m = n := hat.symm
    dsimp only [ownerAct]
    split
    · split
      · exact .keep (fun _ _ => rfl) (fun hno => hno) (fun _ hn => hn)
      · split_ifs
        · exact .keep (fun _ _ => rfl) (fun hno => hno) (fun _ hn => hn)
        · exact .keep (hput _) (fun hno => hno) (fun _ hn => hn)
    · split_ifs
      · exact .keep (fun _ _ => rfl) (fun hno => hno) (fun _ hn => hn)
      · exact .keep (hunlink _) (fun hno => hno) (fun _ hn => hn)
    · exact .keep (hput _) (fun _ => trivial) (fun _ hn => hn)
    · exact .keep (fun _ _ => rfl) (fun hno => hno) (fun _ hn => hn)
  | dropping n =>
    obtain rfl : m = n := hat.symm
    dsimp only [ownerAct]
    split
    · exact .keep (hunlink _) (fun _ => trivial) (fun _ hn => hn)
    · split
      · exact .keep (fun _ _ => rfl) (fun _ => trivial) (fun _ hn => hn)
      · next hremove =>
        obtain ⟨f, -, rfl⟩ := Directory.removeDir_spec hremove
        exact .keep (hput _) (fun _ => trivial) (fun _ hn => hn.elim)
    · exact .keep (fun _ _ => rfl) (fun _ => trivial) (fun _ hn => hn.elim)
    · exact .keep (fun _ _ => rfl) (fun _ => trivial) (fun _ hn => hn)

/-- An owner is at folders of its own names only, and leaves all others alone. -/
theorem ownerAct_at (id : Nat) (choice : OwnerChoice) (directory : Directory)
    (hat : ∀ n, owner.At n → owns n = id) :
    (∀ n, (ownerAct owns id choice directory owner).1.At n → owns n = id) ∧
      ∀ n, owns n ≠ id → (ownerAct owns id choice directory owner).2 n = directory n := by
  have haway : ∀ m, owner.At m →
      (∀ n, (ownerAct owns id choice directory owner).1.At n → owns n = id) ∧
        ∀ n, owns n ≠ id → (ownerAct owns id choice directory owner).2 n = directory n := by
    intro m hm
    obtain ⟨hsame, -, hstays⟩ := ownerAct_away owns id choice directory hm
    refine ⟨fun n hn => ?_, fun n hn => hsame n fun heq => hn ?_⟩
    · rw [hstays n hn]
      exact hat m hm
    · rw [heq]
      exact hat m hm
  cases owner with
  | made m => exact haway m rfl
  | active m => exact haway m rfl
  | dropping m => exact haway m rfl
  | gone dropped => exact ⟨fun n hn => hn.elim, fun _ _ => rfl⟩
  | crashed dropped => exact ⟨fun n hn => hn.elim, fun _ _ => rfl⟩
  | new =>
    dsimp only [ownerAct]
    split
    · split_ifs with hcreate
      · refine ⟨fun n hn => ?_, fun n hn => Directory.put_other fun heq => hn ?_⟩
        · rw [← show _ = n from hn]
          exact hcreate.1
        · rw [heq]
          exact hcreate.1
      · exact ⟨fun n hn => hn.elim, fun _ _ => rfl⟩
    · exact ⟨fun n hn => hn.elim, fun _ _ => rfl⟩

/-- While an owner sorts no recovery has opened its lock. -/
theorem Fits.sorting (h : Fits owner recovery folder id name)
    (hsorts : ¬ owner.Past) {owner' : Owner} (hhas : ∀ f, folder' = some f → owner'.MayHave name)
    (hmade : owner' = .made name → folder' = some ⟨true, none, []⟩)
    (hactive : owner' = .active name → ∃ f, folder' = some f ∧ f.lock = some (some (.owner id)))
    (hlocked : ∀ f, folder' = some f → f.files ≠ [] → f.lock ≠ none ∨ owner'.dropped = true) :
    Fits owner' recovery folder' id name :=
  { has := hhas
    made := hmade
    active := hactive
    touched := fun r hr => absurd (h.touched r hr) hsorts
    due := fun r due hr => absurd (h.touched r (by rw [hr]; rfl)) hsorts
    unlocking := fun r hr => absurd (h.touched r (by rw [hr]; rfl)) hsorts
    locked := hlocked }

/-- An owner that stops leaves its folder as it is. -/
theorem Fits.stop (h : Fits owner recovery folder id name)
    {owner' : Owner} (hpast : owner'.Past) (hhas : owner.MayHave name → owner'.MayHave name)
    (hdropped : owner.dropped = true → owner'.dropped = true) :
    Fits owner' recovery folder id name :=
  h.shrink hpast (fun f hf => hhas (h.has f hf)) (fun f hf => ⟨f, hf, fun _ hx => hx⟩)
    (fun f hf hne => (h.locked f hf hne).imp_right hdropped)

theorem Fits.none_of_elsewhere (h : Fits owner recovery folder id name)
    (hnot : ¬ owner.MayHave name) : folder = none := by
  cases hfolder : folder with
  | none => rfl
  | some f => exact absurd (h.has f hfolder) hnot

/-- An owner that is at another folder has none here. -/
theorem Fits.away (h : Fits owner recovery folder id name) {m : Name} {directory : Directory}
    (hfolder : directory name = folder) {next : Owner × Directory} (hat : owner.At m)
    (hne : name ≠ m) (haway : Away m directory owner next) :
    Fits next.1 recovery (next.2 name) id name := by
  have hnone : folder = none := h.none_of_elsewhere fun hhas => by
    cases owner with
    | new => exact hat
    | made n => exact hne (Eq.symm (hat.symm.trans hhas))
    | active n => exact hne (Eq.symm (hat.symm.trans hhas))
    | dropping n => exact hne (Eq.symm (hat.symm.trans hhas))
    | gone dropped => exact hat
    | crashed dropped => exact hat
  have hstays : ∀ n, next.1.At n → n ≠ name := fun n hn heq => hne (heq ▸ haway.stays n hn)
  rw [haway.same name hne, hfolder, hnone]
  exact
    { has := fun _ hf => by cases hf
      made := fun heq => absurd rfl (hstays name (by rw [heq]; rfl))
      active := fun heq => absurd rfl (hstays name (by rw [heq]; rfl))
      touched := fun r hr => haway.past (h.touched r hr)
      due := fun _ _ _ _ hf => by cases hf
      unlocking := fun _ _ _ hf => by cases hf
      locked := fun _ hf => by cases hf }

theorem ownerAct_fits (choice : OwnerChoice) {directory : Directory}
    (h : Fits owner recovery (directory name) id name) :
    Fits (ownerAct owns id choice directory owner).1 recovery
      ((ownerAct owns id choice directory owner).2 name) id name := by
  have haway : ∀ m, owner.At m → name ≠ m →
      Fits (ownerAct owns id choice directory owner).1 recovery
        ((ownerAct owns id choice directory owner).2 name) id name :=
    fun m hat hne => h.away rfl hat hne (ownerAct_away owns id choice directory hat)
  cases owner with
  | gone dropped => exact h
  | crashed dropped => exact h
  | new =>
    dsimp only [ownerAct]
    split
    · next m =>
      split_ifs
      · by_cases hname : name = m
        · subst hname
          dsimp only
          rw [Directory.put_self]
          refine h.sorting (fun hno => hno) (fun _ _ => rfl) (fun _ => rfl)
            (fun heq => by cases heq) ?_
          intro f hf hne
          cases hf
          exact absurd rfl hne
        · have hnone := h.none_of_elsewhere (fun hno => hno)
          dsimp only
          rw [Directory.put_other hname]
          exact h.sorting (fun hno => hno) (fun f hf => by rw [hnone] at hf; cases hf)
            (fun heq => absurd (by cases heq; rfl) hname) (fun heq => by cases heq)
            (fun f hf => by rw [hnone] at hf; cases hf)
      · exact h
    · exact h
  | made m =>
    by_cases hname : name = m
    swap
    · exact haway m rfl hname
    subst hname
    dsimp only [ownerAct]
    split
    · split
      · exact h.stop trivial (fun _ => trivial) (fun hno => hno)
      · split_ifs
        · dsimp only
          rw [Directory.put_self]
          refine h.sorting (fun hno => hno) (fun _ _ => rfl) (fun heq => by cases heq)
            (fun _ => ⟨_, rfl, rfl⟩) ?_
          intro f hf _
          cases hf
          exact .inl (Option.some_ne_none _)
        · exact h.stop trivial (fun _ => trivial) (fun hno => hno)
    · exact h.stop trivial (fun _ => trivial) (fun hno => hno)
    · exact h
  | active m =>
    by_cases hname : name = m
    swap
    · exact haway m rfl hname
    subst hname
    obtain ⟨f, hf, hlock⟩ := h.active rfl
    have hsame : ∀ files,
        Fits (.active name) recovery (some { f with files := files }) id name := by
      intro files
      refine h.sorting (fun hno => hno) (fun _ _ => rfl) (fun heq => by cases heq)
        (fun _ => ⟨_, rfl, hlock⟩) ?_
      intro f' hf' _
      cases hf'
      exact .inl (by rw [hlock]; exact Option.some_ne_none _)
    dsimp only [ownerAct]
    split
    · rw [hf]
      dsimp only
      split_ifs
      · exact h
      · dsimp only
        rw [Directory.put_self]
        exact hsame _
    · split_ifs with hentry
      · exact h
      · dsimp only
        cases hunlink : directory.unlink name _ with
        | none => exact h
        | some directory' =>
          obtain ⟨g, g', hg, rfl, ⟨heq, -⟩ | ⟨-, rfl⟩⟩ := Directory.unlink_spec hunlink
          · exact absurd heq hentry
          · rw [hf, Option.some.injEq] at hg
            rw [Option.getD_some, Directory.put_self, ← hg]
            exact hsame _
    · dsimp only
      rw [Directory.close_self]
      have hdropping : Owner.Past (.dropping name) := trivial
      exact h.close_past hdropping (fun hhas => hhas) (fun _ => rfl) _
    · exact h
  | dropping m =>
    by_cases hname : name = m
    swap
    · exact haway m rfl hname
    subst hname
    have hdropping : Owner.Past (.dropping name) := trivial
    have hgone : Owner.Past (.gone true) := trivial
    dsimp only [ownerAct]
    split
    · dsimp only
      cases hunlink : directory.unlink name _ with
      | none => exact h
      | some directory' =>
        obtain ⟨g, g', hg, rfl, hcase⟩ := Directory.unlink_spec hunlink
        rw [Option.getD_some, Directory.put_self]
        refine h.shrink hdropping (fun _ _ => rfl) (fun f' hf' => ⟨g, hg, ?_⟩)
          (fun _ _ _ => .inr rfl)
        cases hf'
        obtain ⟨-, -, rfl⟩ | ⟨-, rfl⟩ := hcase
        · exact fun _ hx => hx
        · exact List.filter_subset_self _
    · split
      · exact h
      · next hremove =>
        obtain ⟨f, -, rfl⟩ := Directory.removeDir_spec hremove
        dsimp only
        rw [Directory.put_self]
        exact h.shrink hgone (fun _ _ => trivial) (fun _ hf' => by cases hf')
          (fun _ hf' => by cases hf')
    · exact h.stop hgone (fun _ => trivial) (fun _ => rfl)
    · exact h

end Owners

/-! ## Every run -/

section Runs
variable {owns : Name → Nat} {s : System}

theorem Inv.start (owns : Name → Nat) : Inv owns System.start where
  owned id name h := h.elim
  fits name :=
    { has := fun _ hf => by cases hf
      made := fun heq => by cases heq
      active := fun heq => by cases heq
      touched := fun _ hr => hr.elim
      due := fun _ _ heq => by cases heq
      unlocking := fun _ heq => by cases heq
      locked := fun _ hf => by cases hf }

theorem Inv.actOwner (h : Inv owns s) (id : Nat) (choice : OwnerChoice) :
    Inv owns (s.actOwner owns id choice) := by
  obtain ⟨hat, helse⟩ := ownerAct_at id choice s.directory (h.owned id)
  constructor
  case owned =>
    intro other name hname
    dsimp only [System.actOwner] at hname
    by_cases hother : other = id
    · subst hother
      rw [Function.update_self] at hname
      exact hat name hname
    · rw [Function.update_of_ne hother] at hname
      exact h.owned other name hname
  case fits =>
    intro name
    have hfits := h.fits name
    dsimp only [System.actOwner]
    by_cases hname : owns name = id
    · subst hname
      rw [Function.update_self]
      exact ownerAct_fits choice hfits
    · rw [Function.update_of_ne hname, helse name hname]
      exact hfits

theorem Inv.actRecovery (h : Inv owns s) (r : Nat) (choice : RecoveryChoice) :
    Inv owns (s.actRecovery r choice) :=
  ⟨h.owned, fun name => recoveryAct_fits (h.fits name)⟩

theorem Inv.crash (h : Inv owns s) (party : Party) : Inv owns (s.crash party) := by
  have hclose : ∀ name, s.directory.release party name = (s.directory name).map (closed party) :=
    fun name => Directory.close_self party
  cases party with
  | recovery r =>
    refine ⟨h.owned, fun name => ?_⟩
    have hfits := (h.fits name).close (show Party.recovery r ≠ .owner (owns name) by
      exact Party.noConfusion)
    dsimp only [System.crash]
    rw [hclose]
    exact hfits.elsewhere rfl (fun hno => hno)
  | owner id =>
    constructor
    case owned =>
      intro other name hname
      dsimp only [System.crash] at hname
      by_cases hother : other = id
      · subst hother
        rw [Function.update_self] at hname
        exact hname.elim
      · rw [Function.update_of_ne hother] at hname
        exact h.owned other name hname
    case fits =>
      intro name
      have hfits := h.fits name
      dsimp only [System.crash]
      rw [hclose]
      by_cases hname : owns name = id
      · subst hname
        rw [Function.update_self]
        have hcrashed : Owner.Past (.crashed (s.owner (owns name)).dropped) := trivial
        exact hfits.close_past hcrashed (fun _ => trivial) (fun hdropped => hdropped) _
      · rw [Function.update_of_ne hname]
        exact hfits.close fun heq => hname (by cases heq; rfl)

theorem System.Reachable.inv (h : System.Reachable owns s) : Inv owns s := by
  induction h with
  | start => exact Inv.start owns
  | step _ hstep ih =>
    cases hstep with
    | owner id choice => exact ih.actOwner id choice
    | recovery r choice => exact ih.actRecovery r choice
    | crash party => exact ih.crash party

/-- The folder of an owner that sorts is left alone by all others. -/
theorem Inv.spares (h : Inv owns s) {id : Nat} {name : Name} (hactive : s.owner id = .active name) :
    (∀ other choice, other ≠ id →
      (s.actOwner owns other choice).directory name = s.directory name) ∧
    (∀ r choice, (s.actRecovery r choice).directory name = s.directory name) ∧
    ∀ party, party ≠ .owner id → (s.crash party).directory name = s.directory name := by
  obtain rfl : owns name = id := h.owned id name (by rw [hactive]; rfl)
  have hfits := h.fits name
  obtain ⟨f, hf, hlock⟩ := hfits.active hactive
  refine ⟨fun other choice hother => ?_, fun r choice => ?_, fun party hparty => ?_⟩
  · exact (ownerAct_at other choice s.directory (h.owned other)).2 name (Ne.symm hother)
  · change (recoveryAct r choice s.directory (s.recovery r)).2 name = s.directory name
    by_cases hat : (s.recovery r).At name
    swap
    · exact (recoveryAct_elsewhere r choice s.directory hat).1
    have huntouched : ¬ (s.recovery r).Touches name := fun htouches => by
      have hpast := hfits.touched r htouches
      rw [hactive] at hpast
      exact hpast
    cases hphase : s.recovery r with
    | opening n =>
      obtain rfl : name = n := by rw [hphase] at hat; exact hat.symm
      dsimp only [recoveryAct]
      rw [hf]
      dsimp only
      rw [hlock, if_neg (by exact fun heq => by cases heq)]
      exact hf
    | scanning => rw [hphase] at hat; exact hat.elim
    | gone => rw [hphase] at hat; exact hat.elim
    | holding n => rw [hphase] at hat huntouched; exact absurd hat huntouched
    | listing n => rw [hphase] at hat huntouched; exact absurd hat huntouched
    | emptying n due => rw [hphase] at hat huntouched; exact absurd hat huntouched
    | unlocking n => rw [hphase] at hat huntouched; exact absurd hat huntouched
    | removing n => rw [hphase] at hat huntouched; exact absurd hat huntouched
  · have hclose : (s.crash party).directory name = (s.directory name).map (closed party) := by
      cases party <;> exact Directory.close_self _
    rw [hclose, hf, Option.map_some, closed_eq]
    rw [hlock]
    exact fun heq => hparty (Option.some.inj (Option.some.inj heq)).symm

/-- In whatever order owners and recoveries of whatever processes act, and wherever one of them
ends: what a recovery has opened belongs to an owner that does not sort any more; the folder of one
that sorts has its lock open and is left alone by everybody else; the lock that a recovery is about
to remove is the last of its folder; and files without a lock, which no recovery would come to, are
left of no owner that has not begun to remove them itself. -/
theorem recovery_spares_active (h : System.Reachable owns s) :
    (∀ r name, (s.recovery r).Touches name → (s.owner (owns name)).Past) ∧
    (∀ id name, s.owner id = .active name →
      (∃ f, s.directory name = some f ∧ f.lock = some (some (.owner id))) ∧
      (∀ other choice, other ≠ id →
        (s.actOwner owns other choice).directory name = s.directory name) ∧
      (∀ r choice, (s.actRecovery r choice).directory name = s.directory name) ∧
      ∀ party, party ≠ .owner id → (s.crash party).directory name = s.directory name) ∧
    (∀ r name, s.recovery r = .unlocking name → ∀ f, s.directory name = some f → f.files = []) ∧
    ∀ name f, s.directory name = some f → f.files ≠ [] →
      f.lock ≠ none ∨ (s.owner (owns name)).dropped = true := by
  have hinv := h.inv
  refine ⟨fun r name => (hinv.fits name).touched r,
    fun id name hactive => ⟨?_, hinv.spares hactive⟩,
    fun r name => (hinv.fits name).unlocking r, fun name => (hinv.fits name).locked⟩
  obtain rfl : owns name = id := hinv.owned id name (by rw [hactive]; rfl)
  exact (hinv.fits name).active hactive

end Runs

/-! ### A crash -/

def crashedFolder : Name := folderPrefix ++ ['1', '-', '0']

def activeFolder : Name := folderPrefix ++ ['2', '-', '0']

def twoOwners (name : Name) : Nat := if name = activeFolder then 1 else 0

inductive Event where
  | owner (id : Nat) (choice : OwnerChoice)
  | recovery (id : Nat) (name : Option Name)
  | crash (party : Party)

def happen (s : System) : Event → System
  | .owner id choice => s.actOwner twoOwners id choice
  | .recovery id name => s.actRecovery id ⟨name, true⟩
  | .crash party => s.crash party

theorem reachable_happen (events : List Event) {s : System}
    (h : System.Reachable twoOwners s) : System.Reachable twoOwners (events.foldl happen s) := by
  induction events generalizing s with
  | nil => exact h
  | cons event events ih =>
    refine ih (h.step ?_)
    cases event with
    | owner id choice => exact .owner s id choice
    | recovery id name => exact .recovery s id ⟨name, true⟩
    | crash party => exact .crash s party

/-- One sort crashes, another one sorts. A recovery has come to the folder of the second, and a
second one, which has been there too, has opened the lock of the first. -/
def afterCrash : System :=
  [.owner 0 (.create crashedFolder), .owner 0 .lock, .owner 0 (.add ['a']), .crash (.owner 0),
    .owner 1 (.create activeFolder), .owner 1 .lock, .recovery 0 (some activeFolder),
    .recovery 1 (some activeFolder), .recovery 1 none, .recovery 1 (some crashedFolder),
    .recovery 1 none].foldl happen .start

theorem recovery_spares_active_afterCrash :
    (afterCrash.owner 0).Past ∧ afterCrash.recovery 0 = .opening activeFolder ∧
      (afterCrash.actRecovery 0 ⟨none, true⟩).directory activeFolder =
        afterCrash.directory activeFolder := by
  obtain ⟨htouched, hactive, -⟩ :=
    recovery_spares_active (reachable_happen _ .start : System.Reachable twoOwners afterCrash)
  refine ⟨htouched 1 crashedFolder ?_, rfl, (hactive 1 activeFolder ?_).2.2.1 0 ⟨none, true⟩⟩
  · exact (rfl : afterCrash.recovery 1 = .holding crashedFolder) ▸ rfl
  · rfl

end LeanRows.Sort.Folders
