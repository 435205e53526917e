import LeanRows.Source

/-!
# One sort at a time

The tabs of the process sort with one permit. A tab takes it in front of its first sort step
and gives it back when its sort is dropped, on whatever way it ends. The fields of a sort are
dropped in their order: the session, the memory of its source and then the permit.
-/

namespace LeanRows.SortTabs

set_option autoImplicit false

/-- The coordinator's atomics, and the memory that sorts and their sessions have charged. The page
that a finished order reserves for itself, of 4096 bytes, is not counted. -/
structure SortCoordinator where
  next : Nat
  active : Nat
  memory : Nat

namespace SortCoordinator

def new : SortCoordinator := ⟨0, 0, 0⟩

/-- One pass of the loop of `request`. Zero is no serial. -/
def request (coordinator : SortCoordinator) : Option Nat × SortCoordinator :=
  let serial := (coordinator.next + 1) % u64Bound
  (if serial = 0 then none else some serial, { coordinator with next := serial })

/-- The permit is its serial. -/
def tryAcquire (serial : Nat) (coordinator : SortCoordinator) : Option Nat × SortCoordinator :=
  if coordinator.active = 0 then (some serial, { coordinator with active := serial })
  else (none, coordinator)

def dropPermit (permit : Nat) (coordinator : SortCoordinator) : SortCoordinator :=
  if coordinator.active = permit then { coordinator with active := 0 } else coordinator

def charge (bytes : Nat) (coordinator : SortCoordinator) : SortCoordinator :=
  { coordinator with memory := coordinator.memory + bytes }

def release (bytes : Nat) (coordinator : SortCoordinator) : SortCoordinator :=
  { coordinator with memory := coordinator.memory - bytes }

end SortCoordinator

structure SortCommand where
  documentSerial : Nat
  serial : Nat
  /-- False asks for the order of the source. -/
  sorts : Bool
  generation : Nat

/-- A session is here what it has charged. -/
structure ActiveSort where
  serial : Nat
  generation : Nat
  session : Option (List Nat)
  sourceMemory : Option Nat
  permit : Option Nat

def ActiveSort.of (command : SortCommand) : ActiveSort :=
  ⟨command.serial, command.generation, none, none, none⟩

/-- What the worker does once a sort is dropped. -/
inductive Next where
  | loop
  | begin (command : SortCommand)
  | opened (document : Option Nat)
  | exit

/-- Where the worker of a tab stands. At rest its sort is that of its document. -/
inductive Phase where
  | rest
  | acquiring
  | opening
  | sourced
  | stepping
  | completing
  | delivering (session : List Nat)
  | dropping (next : Next)
  | gone

/-- Where the caller of `request_sort` stands. -/
inductive Requesting where
  | idle
  | fetched (serial : Nat)
  | stored (serial generation : Nat)

structure Tab where
  requesting : Requesting
  latestSerial : Nat
  latestSortSerial : Nat
  generation : Nat
  sorts : Option SortCommand
  document : Option Nat
  sort : Option ActiveSort
  phase : Phase

def Tab.new : Tab := ⟨.idle, 0, 0, 0, none, none, none, .rest⟩

def sourceMemoryBytes : Nat := 64 * 1024

/-- How a piece of work of the sort ends. `charges` is what the session has charged then. -/
inductive Outcome where
  | failed (charges : List Nat)
  | went (charges : List Nat)
  | finished (charges : List Nat)

/-- The steps of a tab: the calls of its window, and one action of its worker at a time. -/
inductive Move where
  | request
  | store
  | send (sorts : Bool)
  | cancelSort
  | submitPath
  | start
  | replaceDocument (document : Option Nat)
  | shutdown
  | advance
  | acquire
  | reserve (granted : Bool)
  | openSession (outcome : Option (List Nat))
  | step (outcome : Outcome)
  | complete
  | deliver
  | drop

namespace Tab

/-- The sort is no longer wanted. -/
def stale (tab : Tab) (active : ActiveSort) : Bool :=
  active.serial != tab.latestSortSerial || active.generation != tab.generation

/-- The sort that there is goes first. -/
def dropThen (next : Next) (tab : Tab) : Tab := { tab with phase := .dropping next }

/-- A sort is dropped; its worker goes on. -/
def goOn (next : Next) (tab : Tab) : Tab :=
  match next with
  | .loop => { tab with sort := none, phase := .rest }
  | .begin command =>
    { tab with sort := if command.sorts then some (.of command) else none, phase := .rest }
  | .opened document => { tab with document := document, sort := none, phase := .rest }
  | .exit => { tab with document := none, sort := none, phase := .gone }

/-- One field of the sort is dropped, a charge of its session at a time. -/
def dropField (next : Next) (active : ActiveSort) (tab : Tab) (coordinator : SortCoordinator) :
    Tab × SortCoordinator :=
  match active.session, active.sourceMemory, active.permit with
  | some (bytes :: charges), _, _ =>
    ({ tab with sort := some { active with session := some charges } }, coordinator.release bytes)
  | some [], _, _ => ({ tab with sort := some { active with session := none } }, coordinator)
  | none, some bytes, _ =>
    ({ tab with sort := some { active with sourceMemory := none } }, coordinator.release bytes)
  | none, none, some permit =>
    ({ tab with sort := some { active with permit := none } }, coordinator.dropPermit permit)
  | none, none, none => (tab.goOn next, coordinator)

/-- The calls of the window. -/
def call (move : Move) (tab : Tab) (coordinator : SortCoordinator) : Tab × SortCoordinator :=
  match move, tab.requesting with
  | .request, .idle =>
    ({ tab with requesting := coordinator.request.1.elim .idle .fetched }, coordinator.request.2)
  | .store, .fetched serial =>
    ({ tab with
      requesting := .stored serial (tab.generation + 1)
      generation := tab.generation + 1
      latestSortSerial := serial }, coordinator)
  | .send sorts, .stored serial generation =>
    ({ tab with
      requesting := .idle
      sorts := some ⟨tab.latestSerial, serial, sorts, generation⟩ }, coordinator)
  | .cancelSort, .idle => ({ tab with generation := tab.generation + 1 }, coordinator)
  | .submitPath, .idle =>
    ({ tab with
      generation := tab.generation + 1
      latestSortSerial := 0
      latestSerial := tab.latestSerial + 1
      sorts := none }, coordinator)
  | _, _ => (tab, coordinator)

/-- The actions of the worker with no sort in its hands. -/
def atRest (move : Move) (tab : Tab) (coordinator : SortCoordinator) : Tab × SortCoordinator :=
  match move, tab.sorts, tab.sort with
  | .start, some command, _ =>
    if tab.document ≠ some command.documentSerial ∨ command.serial ≠ tab.latestSortSerial then
      ({ tab with sorts := none }, coordinator)
    else
      match tab.sort with
      | some _ => (dropThen (.begin command) { tab with sorts := none }, coordinator)
      | none => (goOn (.begin command) { tab with sorts := none }, coordinator)
  | .replaceDocument document, _, some _ => (tab.dropThen (.opened document), coordinator)
  | .replaceDocument document, _, none => (tab.goOn (.opened document), coordinator)
  | .shutdown, _, some _ => (tab.dropThen .exit, coordinator)
  | .shutdown, _, none => (tab.goOn .exit, coordinator)
  | .advance, _, some active =>
    if tab.stale active then (tab.dropThen .loop, coordinator)
    else if active.permit.isNone then ({ tab with phase := .acquiring }, coordinator)
    else if active.session.isNone then ({ tab with phase := .opening }, coordinator)
    else ({ tab with phase := .stepping }, coordinator)
  | _, _, _ => (tab, coordinator)

/-- The actions of the worker in the middle of `advance_sort` and of `complete_sort`. -/
def atWork (move : Move) (active : ActiveSort) (tab : Tab) (coordinator : SortCoordinator) :
    Tab × SortCoordinator :=
  match tab.phase, move with
  | .acquiring, .acquire =>
    match coordinator.tryAcquire active.serial with
    | (some permit, coordinator) =>
      ({ tab with sort := some { active with permit := some permit }, phase := .opening },
        coordinator)
    | (none, coordinator) => ({ tab with phase := .rest }, coordinator)
  | .opening, .reserve granted =>
    if granted then
      ({ tab with
        sort := some { active with sourceMemory := some sourceMemoryBytes }
        phase := .sourced }, coordinator.charge sourceMemoryBytes)
    else (tab.dropThen .loop, coordinator)
  | .sourced, .openSession (some charges) =>
    ({ tab with sort := some { active with session := some charges }, phase := .stepping },
      coordinator.charge charges.sum)
  | .sourced, .openSession none => (tab.dropThen .loop, coordinator)
  | .stepping, .step (.failed charges) =>
    (dropThen .loop { tab with sort := some { active with session := some charges } },
      (coordinator.release (active.session.getD []).sum).charge charges.sum)
  | .stepping, .step (.went charges) =>
    ({ tab with sort := some { active with session := some charges }, phase := .rest },
      (coordinator.release (active.session.getD []).sum).charge charges.sum)
  | .stepping, .step (.finished charges) =>
    ({ tab with sort := some { active with session := some charges }, phase := .completing },
      (coordinator.release (active.session.getD []).sum).charge charges.sum)
  | .completing, .complete =>
    if tab.stale active then (tab.dropThen .loop, coordinator)
    else
      match active.session with
      | some charges =>
        ({ tab with sort := some { active with session := none }, phase := .delivering charges },
          coordinator)
      | none => (tab.dropThen .loop, coordinator)
  | .delivering (bytes :: charges), .deliver =>
    ({ tab with phase := .delivering charges }, coordinator.release bytes)
  | .delivering [], .deliver => (tab.dropThen .loop, coordinator)
  | .dropping next, .drop => dropField next active tab coordinator
  | _, _ => (tab, coordinator)

def run (move : Move) (tab : Tab) (coordinator : SortCoordinator) : Tab × SortCoordinator :=
  match move with
  | .request | .store | .send _ | .cancelSort | .submitPath => tab.call move coordinator
  | _ =>
    match tab.phase, tab.sort with
    | .rest, _ => tab.atRest move coordinator
    | _, some active => tab.atWork move active coordinator
    | _, none => (tab, coordinator)

/-! ## What one step can do -/

def permit (tab : Tab) : Option Nat := tab.sort.bind ActiveSort.permit

def sessionCharges (tab : Tab) : List Nat :=
  match tab.phase with
  | .delivering charges => charges
  | _ => (tab.sort.bind ActiveSort.session).getD []

def charges (tab : Tab) : Nat :=
  tab.sessionCharges.sum + (tab.sort.bind ActiveSort.sourceMemory).getD 0

/-- There is a session, in the sort or in the hands of `complete_sort`. -/
def HasSession (tab : Tab) : Prop :=
  (∃ charges, tab.phase = .delivering charges) ∨ tab.sort.bind ActiveSort.session ≠ none

/-- A sort whose permit is there, with no session in it. -/
def Emptied (sort : Option ActiveSort) : Prop :=
  ∃ active, sort = some active ∧ active.permit ≠ none ∧ active.session = none

/-- What the place of the worker says of its sort. -/
def AtPhase (sort : Option ActiveSort) : Phase → Prop
  | .rest => ∀ active, sort = some active → active.permit ≠ none → active.session ≠ none
  | .acquiring => ∃ active, sort = some active ∧ active.permit = none
  | .opening => Emptied sort ∧ ∀ active, sort = some active → active.sourceMemory = none
  | .sourced => Emptied sort
  | .stepping | .completing => ∃ active, sort = some active ∧ active.session ≠ none
  | .delivering _ => Emptied sort
  | .dropping next => ∀ command, next = .begin command → command.serial ≠ 0
  | .gone => sort = none

/-- What holds in a tab for itself. Whatever is charged, the permit is there. -/
structure Good (tab : Tab) : Prop where
  serial : ∀ active, tab.sort = some active → active.serial ≠ 0
  unpermitted : ∀ active, tab.sort = some active → active.permit = none →
    active.session = none ∧ active.sourceMemory = none
  phase : AtPhase tab.sort tab.phase
  command : ∀ command, tab.sorts = some command → command.serial ≠ 0
  requesting : match tab.requesting with
    | .idle => True
    | .fetched serial | .stored serial _ => serial ≠ 0

/-- All that a step can do to the permit and to what is charged. -/
inductive Effect (tab tab' : Tab) (coordinator coordinator' : SortCoordinator) : Prop where
  | none : tab'.permit = tab.permit → coordinator'.active = coordinator.active →
    (tab.charges ≤ coordinator.memory →
      coordinator'.memory + tab.charges = coordinator.memory + tab'.charges) →
    Effect tab tab' coordinator coordinator'
  | acquired (serial : Nat) : serial ≠ 0 → tab.permit = .none → coordinator.active = 0 →
    tab'.permit = some serial → coordinator'.active = serial → tab'.charges = tab.charges →
    coordinator'.memory = coordinator.memory → Effect tab tab' coordinator coordinator'
  | released (permit : Nat) : tab.permit = some permit → tab.charges = 0 → tab'.permit = .none →
    tab'.charges = 0 → coordinator' = coordinator.dropPermit permit →
    Effect tab tab' coordinator coordinator'

section Step
variable {tab tab' : Tab} {coordinator coordinator' : SortCoordinator}

theorem Good.new : Tab.new.Good :=
  ⟨fun _ h => (by cases h), fun _ h => (by cases h), fun _ h => (by cases h),
    fun _ h => (by cases h), trivial⟩

theorem Effect.same (hpermit : tab'.permit = tab.permit) (hcharges : tab'.charges = tab.charges) :
    Effect tab tab' coordinator coordinator :=
  .none hpermit rfl fun _ => by rw [hcharges]

theorem call_good (h : tab.Good) (move : Move) : (tab.call move coordinator).1.Good ∧
    Effect tab (tab.call move coordinator).1 coordinator (tab.call move coordinator).2 := by
  obtain ⟨hserial, hunpermitted, hphase, hcommand, hrequesting⟩ := h
  unfold call
  split
  · refine ⟨⟨hserial, hunpermitted, hphase, hcommand, ?_⟩, .none rfl rfl fun _ => rfl⟩
    unfold SortCoordinator.request
    by_cases hzero : (coordinator.next + 1) % u64Bound = 0
    · simp [hzero]
    · simp [hzero]
  · next serial heq =>
    rw [heq] at hrequesting
    exact ⟨⟨hserial, hunpermitted, hphase, hcommand, hrequesting⟩, .same rfl rfl⟩
  · next sorts serial generation heq =>
    rw [heq] at hrequesting
    refine ⟨⟨hserial, hunpermitted, hphase, ?_, trivial⟩, .same rfl rfl⟩
    intro command hsome
    cases hsome
    exact hrequesting
  · next heq => exact ⟨⟨hserial, hunpermitted, hphase, hcommand, hrequesting⟩, .same rfl rfl⟩
  · exact ⟨⟨hserial, hunpermitted, hphase, fun _ h => (by cases h), hrequesting⟩, .same rfl rfl⟩
  · exact ⟨⟨hserial, hunpermitted, hphase, hcommand, hrequesting⟩, .same rfl rfl⟩

/-- With no sort left, what comes next starts without a permit and without charges. -/
theorem goOn_good {next : Next} (h : tab.Good) (hnext : AtPhase tab.sort (.dropping next)) :
    (tab.goOn next).Good ∧ (tab.goOn next).permit = none ∧ (tab.goOn next).charges = 0 := by
  obtain ⟨-, -, -, hcommand, hrequesting⟩ := h
  cases next with
  | loop =>
    exact ⟨⟨fun _ h => (by cases h), fun _ h => (by cases h), fun _ h => (by cases h), hcommand,
      hrequesting⟩, rfl, rfl⟩
  | begin command =>
    have hserial := hnext command rfl
    by_cases hsorts : command.sorts = true
    · have hgo : tab.goOn (.begin command) =
          { tab with sort := some (.of command), phase := .rest } := by simp [goOn, hsorts]
      rw [hgo]
      refine ⟨⟨?_, ?_, ?_, hcommand, hrequesting⟩, rfl, rfl⟩
      · intro active hactive
        cases hactive
        exact hserial
      · intro active hactive _
        cases hactive
        exact ⟨rfl, rfl⟩
      · intro active hactive hpermit
        cases hactive
        exact absurd rfl hpermit
    · have hgo : tab.goOn (.begin command) = { tab with sort := none, phase := .rest } := by
        simp [goOn, hsorts]
      rw [hgo]
      exact ⟨⟨fun _ h => (by cases h), fun _ h => (by cases h), fun _ h => (by cases h), hcommand,
        hrequesting⟩, rfl, rfl⟩
  | opened document =>
    exact ⟨⟨fun _ h => (by cases h), fun _ h => (by cases h), fun _ h => (by cases h), hcommand,
      hrequesting⟩, rfl, rfl⟩
  | exit =>
    exact ⟨⟨fun _ h => (by cases h), fun _ h => (by cases h), rfl, hcommand, hrequesting⟩, rfl, rfl⟩

theorem permit_some {active : ActiveSort} (h : tab.sort = some active) :
    tab.permit = active.permit := by
  rw [permit, h]
  rfl

/-- Where a sort is dropped, it and its charges are at first what they were. -/
theorem dropThen_good {next : Next} (h : tab.Good)
    (hphase : ∀ charges, tab.phase ≠ .delivering charges)
    (hnext : AtPhase tab.sort (.dropping next)) :
    (tab.dropThen next).Good ∧ Effect tab (tab.dropThen next) coordinator coordinator := by
  refine ⟨⟨h.serial, h.unpermitted, hnext, h.command, h.requesting⟩, .same rfl ?_⟩
  have hcharges : tab.sessionCharges = (tab.sort.bind ActiveSort.session).getD [] := by
    unfold sessionCharges
    split
    · next charges heq => exact absurd heq (hphase charges)
    · rfl
  unfold charges
  rw [hcharges]
  rfl

theorem dropField_good {next : Next} {active : ActiveSort} (h : tab.Good)
    (hphase : tab.phase = .dropping next) (hsort : tab.sort = some active) :
    (tab.dropField next active coordinator).1.Good ∧
    Effect tab (tab.dropField next active coordinator).1 coordinator
      (tab.dropField next active coordinator).2 := by
  have hnext := h.phase
  rw [hphase] at hnext
  have hserial := h.serial active hsort
  have hheld := h.unpermitted active hsort
  have hcharges : tab.charges = (active.session.getD []).sum + active.sourceMemory.getD 0 := by
    simp [charges, sessionCharges, hphase, hsort]
  have hgood : ∀ active' : ActiveSort, active'.serial = active.serial →
      (active'.permit = none → active'.session = none ∧ active'.sourceMemory = none) →
      Good { tab with sort := some active' } := by
    intro active' hsame hunpermitted
    refine ⟨?_, ?_, ?_, h.command, h.requesting⟩
    · intro active'' heq
      cases heq
      rw [hsame]
      exact hserial
    · intro active'' heq
      cases heq
      exact hunpermitted
    · show AtPhase (some active') tab.phase
      rw [hphase]
      exact hnext
  rcases hsession : active.session with _ | _ | ⟨bytes, charges⟩
  · rcases hsource : active.sourceMemory with _ | bytes
    · rcases hpermit : active.permit with _ | permit
      · obtain ⟨hgo, hnone, hzero⟩ := goOn_good h hnext
        simp only [dropField, hsession, hsource, hpermit]
        refine ⟨hgo, .same ?_ ?_⟩
        · rw [hnone, permit_some hsort, hpermit]
        · rw [hzero, hcharges, hsession, hsource]
          rfl
      · simp only [dropField, hsession, hsource, hpermit]
        refine ⟨hgood _ rfl fun _ => ⟨rfl, rfl⟩, .released permit ?_ ?_ rfl ?_ rfl⟩
        · rw [permit_some hsort, hpermit]
        · rw [hcharges, hsession, hsource]
          rfl
        · simp [Tab.charges, sessionCharges, hphase]
    · simp only [dropField, hsession, hsource]
      refine ⟨hgood _ rfl fun _ => ⟨rfl, rfl⟩, .none ?_ rfl fun hle => ?_⟩
      · rw [permit_some hsort]
        rfl
      · rw [hcharges, hsession, hsource] at hle ⊢
        simp [SortCoordinator.release, Tab.charges, sessionCharges, hphase] at hle ⊢
        omega
  · simp only [dropField, hsession]
    refine ⟨hgood _ rfl fun hpermit => ⟨rfl, (hheld hpermit).2⟩, .same ?_ ?_⟩
    · rw [permit_some hsort]
      rfl
    · rw [hcharges, hsession]
      simp [Tab.charges, sessionCharges, hphase]
  · simp only [dropField, hsession]
    refine ⟨hgood _ rfl fun hpermit => ?_, .none ?_ rfl fun hle => ?_⟩
    · have hnone := (hheld hpermit).1
      rw [hsession] at hnone
      cases hnone
    · rw [permit_some hsort]
      rfl
    · rw [hcharges, hsession] at hle ⊢
      simp [SortCoordinator.release, Tab.charges, sessionCharges, hphase] at hle ⊢
      omega

theorem atRest_good (h : tab.Good) (hrest : tab.phase = .rest) (move : Move) :
    (tab.atRest move coordinator).1.Good ∧
    Effect tab (tab.atRest move coordinator).1 coordinator (tab.atRest move coordinator).2 := by
  have hkeep : tab.Good ∧ Effect tab tab coordinator coordinator := ⟨h, .same rfl rfl⟩
  have hphase : ∀ charges, tab.phase ≠ .delivering charges := by
    intro charges heq
    rw [hrest] at heq
    cases heq
  have hnone : ∀ (document : Tab) (next : Next), document.Good → tab.sort = none →
      document.sort = tab.sort → document.phase = tab.phase →
        AtPhase document.sort (.dropping next) →
      (document.goOn next).Good ∧ Effect tab (document.goOn next) coordinator coordinator := by
    intro document next hdocument hsort hsame hstays hnext
    obtain ⟨hgo, hpermit, hzero⟩ := goOn_good hdocument hnext
    refine ⟨hgo, .same ?_ ?_⟩
    · rw [hpermit, permit, hsort]
      rfl
    · rw [hzero, charges, sessionCharges, hrest, hsort]
      rfl
  have hother : ∀ next, (∀ command, next ≠ .begin command) → AtPhase tab.sort (.dropping next) :=
    fun next hne command heq => absurd heq (hne command)
  have htaken : Good { tab with sorts := none } :=
    ⟨h.serial, h.unpermitted, h.phase, fun _ h => (by cases h), h.requesting⟩
  unfold atRest
  split
  · next command hsorts =>
    have hcommand := h.command command hsorts
    have hbegin : AtPhase tab.sort (.dropping (.begin command)) := by
      intro command' heq
      cases heq
      exact hcommand
    split_ifs
    · exact ⟨htaken, .same rfl rfl⟩
    · rcases hsort : tab.sort with _ | active
      · exact hnone { tab with sorts := none } _ htaken hsort rfl rfl hbegin
      · have hgood : Good (dropThen (.begin command) { tab with sorts := none }) :=
          ⟨h.serial, h.unpermitted, hbegin, fun _ h => (by cases h), h.requesting⟩
        rw [hsort] at hgood
        refine ⟨hgood, .same ?_ ?_⟩
        · rw [permit_some hsort]
          rfl
        · simp [dropThen, charges, sessionCharges, hrest, hsort]
  · exact dropThen_good h hphase (hother (.opened _) fun _ h => by cases h)
  · next hsort => exact hnone tab _ h hsort rfl rfl (hother (.opened _) fun _ h => by cases h)
  · exact dropThen_good h hphase (hother .exit fun _ h => by cases h)
  · next hsort => exact hnone tab _ h hsort rfl rfl (hother .exit fun _ h => by cases h)
  · next active hsort =>
    have hcharges : ∀ phase, (∀ charges, phase ≠ .delivering charges) →
        charges { tab with phase := phase } = tab.charges := by
      intro phase hne
      have hsession : sessionCharges { tab with phase := phase } = tab.sessionCharges := by
        unfold sessionCharges
        rw [hrest]
        split
        · next charges heq => exact absurd heq (hne charges)
        · rfl
      rw [charges, charges, hsession]
    have hplace := h.phase
    rw [hrest] at hplace
    split_ifs with hstale hpermit hsession
    · exact dropThen_good h hphase (hother .loop fun _ h => by cases h)
    · exact ⟨⟨h.serial, h.unpermitted, ⟨active, hsort, by simpa using hpermit⟩, h.command,
        h.requesting⟩, .same rfl (hcharges _ fun _ h => by cases h)⟩
    · have hnot := hplace active hsort (by simpa [Option.isNone_iff_eq_none] using hpermit)
      exact absurd (by simpa using hsession) hnot
    · exact ⟨⟨h.serial, h.unpermitted, ⟨active, hsort, by simpa using hsession⟩, h.command,
        h.requesting⟩, .same rfl (hcharges _ fun _ h => by cases h)⟩
  · exact hkeep

theorem atWork_good {active : ActiveSort} (h : tab.Good) (hsort : tab.sort = some active)
    (move : Move) : (tab.atWork move active coordinator).1.Good ∧
    Effect tab (tab.atWork move active coordinator).1 coordinator
      (tab.atWork move active coordinator).2 := by
  have hplace := h.phase
  have hloop : AtPhase tab.sort (.dropping .loop) := fun _ heq => by cases heq
  have hserial := h.serial active hsort
  have hheld := h.unpermitted active hsort
  have hstepping : (∃ active, tab.sort = some active ∧ active.session ≠ none) →
      active.permit ≠ none ∧ active.session ≠ none := by
    rintro ⟨active', heq, hsession⟩
    rw [hsort] at heq
    cases heq
    exact ⟨fun hpermit => hsession (hheld hpermit).1, hsession⟩
  -- A sort with another session or permit, in another place.
  have hgood : ∀ (active' : ActiveSort) (phase : Phase), active'.serial = active.serial →
      (active'.permit = none → active'.session = none ∧ active'.sourceMemory = none) →
      AtPhase (some active') phase → Good { tab with sort := some active', phase := phase } := by
    intro active' phase hsame hunpermitted hphase
    refine ⟨?_, ?_, hphase, h.command, h.requesting⟩
    · intro active'' heq
      cases heq
      rw [hsame]
      exact hserial
    · intro active'' heq
      cases heq
      exact hunpermitted
  unfold atWork
  split
  · next hphase =>
    rw [hphase] at hplace
    obtain ⟨active', heq, hnone⟩ := hplace
    rw [hsort] at heq
    cases heq
    obtain ⟨hsession, hsource⟩ := hheld hnone
    unfold SortCoordinator.tryAcquire
    split_ifs with hfree
    · refine ⟨hgood _ _ rfl (fun h => by cases h) ⟨⟨_, rfl, by simp, hsession⟩, ?_⟩,
        .acquired active.serial hserial ?_ hfree rfl rfl ?_ rfl⟩
      · intro active'' heq
        cases heq
        exact hsource
      · rw [permit_some hsort, hnone]
      · simp [charges, sessionCharges, hphase, hsort]
    · refine ⟨⟨h.serial, h.unpermitted, ?_, h.command, h.requesting⟩, .same rfl ?_⟩
      · intro active'' heq hpermit
        rw [hsort] at heq
        cases heq
        exact absurd hnone hpermit
      · simp [charges, sessionCharges, hphase]
  · next granted hphase =>
    rw [hphase] at hplace
    obtain ⟨⟨active', heq, hpermit, hsession⟩, hsource⟩ := hplace
    rw [hsort] at heq
    cases heq
    have hsource := hsource active hsort
    split_ifs
    · refine ⟨hgood _ _ rfl (fun h => absurd h hpermit) ⟨_, rfl, hpermit, hsession⟩,
        .none ?_ rfl fun _ => ?_⟩
      · rw [permit_some hsort]
        rfl
      · simp [charges, sessionCharges, hphase, hsort, hsession, hsource, SortCoordinator.charge]
    · exact dropThen_good h (by simp [hphase]) hloop
  · next charges hphase =>
    rw [hphase] at hplace
    obtain ⟨active', heq, hpermit, hsession⟩ := hplace
    rw [hsort] at heq
    cases heq
    refine ⟨hgood _ _ rfl (fun h => absurd h hpermit) ⟨_, rfl, by simp⟩, .none ?_ rfl fun _ => ?_⟩
    · rw [permit_some hsort]
      rfl
    · simp [Tab.charges, sessionCharges, hphase, hsort, hsession, SortCoordinator.charge]
      omega
  · next hphase => exact dropThen_good h (by simp [hphase]) hloop
  · next charges hphase =>
    rw [hphase] at hplace
    obtain ⟨hpermit, hcharges⟩ := hstepping hplace
    refine ⟨hgood _ (.dropping .loop) rfl (fun h => absurd h hpermit) hloop,
      .none ?_ rfl fun hle => ?_⟩
    · rw [permit_some hsort]
      rfl
    · simp [Tab.charges, sessionCharges, hphase, hsort, dropThen, SortCoordinator.charge,
        SortCoordinator.release] at hle ⊢
      omega
  · next charges hphase =>
    rw [hphase] at hplace
    obtain ⟨hpermit, hcharges⟩ := hstepping hplace
    refine ⟨hgood _ .rest rfl (fun h => absurd h hpermit) ?_, .none ?_ rfl fun hle => ?_⟩
    · intro active' heq _
      cases heq
      simp
    · rw [permit_some hsort]
      rfl
    · simp [Tab.charges, sessionCharges, hphase, hsort, SortCoordinator.charge,
        SortCoordinator.release] at hle ⊢
      omega
  · next charges hphase =>
    rw [hphase] at hplace
    obtain ⟨hpermit, hcharges⟩ := hstepping hplace
    refine ⟨hgood _ .completing rfl (fun h => absurd h hpermit) ⟨_, rfl, by simp⟩,
      .none ?_ rfl fun hle => ?_⟩
    · rw [permit_some hsort]
      rfl
    · simp [Tab.charges, sessionCharges, hphase, hsort, SortCoordinator.charge,
        SortCoordinator.release] at hle ⊢
      omega
  · next hphase =>
    rw [hphase] at hplace
    obtain ⟨hpermit, -⟩ := hstepping hplace
    split_ifs
    · exact dropThen_good h (by simp [hphase]) hloop
    · split
      · next charges hsession =>
        refine ⟨hgood _ (.delivering charges) rfl (fun h => absurd h hpermit)
          ⟨_, rfl, hpermit, rfl⟩, .same ?_ ?_⟩
        · rw [permit_some hsort]
          rfl
        · simp [Tab.charges, sessionCharges, hphase, hsort, hsession]
      · exact dropThen_good h (by simp [hphase]) hloop
  · next bytes charges hphase =>
    rw [hphase] at hplace
    refine ⟨⟨h.serial, h.unpermitted, hplace, h.command, h.requesting⟩, .none rfl rfl fun hle => ?_⟩
    simp [Tab.charges, sessionCharges, hphase, SortCoordinator.release] at hle ⊢
    omega
  · next hphase =>
    rw [hphase] at hplace
    obtain ⟨active', heq, hpermit, hsession⟩ := hplace
    rw [hsort] at heq
    cases heq
    refine ⟨⟨h.serial, h.unpermitted, hloop, h.command, h.requesting⟩, .same rfl ?_⟩
    simp [Tab.charges, sessionCharges, hphase, dropThen, hsort, hsession]
  · next next' hphase => exact dropField_good h hphase hsort
  · exact ⟨h, .same rfl rfl⟩

theorem run_good (h : tab.Good) (move : Move) : (tab.run move coordinator).1.Good ∧
    Effect tab (tab.run move coordinator).1 coordinator (tab.run move coordinator).2 := by
  unfold run
  split
  · exact call_good h _
  · exact call_good h _
  · exact call_good h _
  · exact call_good h _
  · exact call_good h _
  · split
    · next hphase => exact atRest_good h hphase move
    · next active hsort _ => exact atWork_good h hsort move
    · exact ⟨h, .same rfl rfl⟩

/-- Without the permit there is nothing that could be charged. -/
theorem Good.unheld (h : tab.Good) (hpermit : tab.permit = none) :
    tab.charges = 0 ∧ ¬ tab.HasSession := by
  have hemptied : ∀ sort, Emptied sort → tab.sort = sort → False := by
    rintro sort ⟨active, rfl, hsome, -⟩ hsort
    rw [permit_some hsort] at hpermit
    exact hsome hpermit
  have hdelivering : ∀ charges, tab.phase ≠ .delivering charges := by
    intro charges hphase
    have hplace := h.phase
    rw [hphase] at hplace
    exact hemptied tab.sort hplace rfl
  have hsession : tab.sort.bind ActiveSort.session = none ∧
      tab.sort.bind ActiveSort.sourceMemory = none := by
    rcases hsort : tab.sort with _ | active
    · exact ⟨rfl, rfl⟩
    · rw [permit_some hsort] at hpermit
      exact h.unpermitted active hsort hpermit
  constructor
  · have hcharges : tab.sessionCharges = (tab.sort.bind ActiveSort.session).getD [] := by
      unfold sessionCharges
      split
      · next charges heq => exact absurd heq (hdelivering charges)
      · rfl
    rw [charges, hcharges, hsession.1, hsession.2]
    rfl
  · rintro (⟨charges, hphase⟩ | hsome)
    · exact hdelivering charges hphase
    · exact hsome hsession.1

end Step

end Tab

/-! ## All tabs -/

structure System where
  coordinator : SortCoordinator
  tabs : Nat → Tab

namespace System

def new : System := ⟨.new, fun _ => .new⟩

/-- One step of one tab. -/
def step (index : Nat) (move : Move) (s : System) : System :=
  ⟨((s.tabs index).run move s.coordinator).2,
    Function.update s.tabs index ((s.tabs index).run move s.coordinator).1⟩

/-- The steps of all tabs in any order. -/
def run (moves : List (Nat × Move)) (s : System) : System :=
  moves.foldl (fun s move => s.step move.1 move.2) s

/-- The permit and all that sorts have charged are in one tab, the one that the coordinator
knows. -/
def Held (s : System) (index : Nat) : Prop :=
  s.coordinator.active ≠ 0 ∧ (s.tabs index).permit = some s.coordinator.active ∧
    s.coordinator.memory = (s.tabs index).charges ∧
    ∀ other, other ≠ index → (s.tabs other).permit = none

def Free (s : System) : Prop :=
  s.coordinator.active = 0 ∧ s.coordinator.memory = 0 ∧ ∀ index, (s.tabs index).permit = none

structure Inv (s : System) : Prop where
  good : ∀ index, (s.tabs index).Good
  held : s.Free ∨ ∃ index, s.Held index

theorem new_inv : new.Inv := ⟨fun _ => .new, .inl ⟨rfl, rfl, fun _ => rfl⟩⟩

section Step
variable {s : System} {index : Nat} {move : Move}

theorem step_self : (s.step index move).tabs index = ((s.tabs index).run move s.coordinator).1 :=
  Function.update_self ..

theorem step_other {other : Nat} (h : other ≠ index) :
    (s.step index move).tabs other = s.tabs other :=
  Function.update_of_ne h ..

theorem step_inv (h : s.Inv) (index : Nat) (move : Move) : (s.step index move).Inv := by
  obtain ⟨hgood, heffect⟩ :
      ((s.tabs index).run move s.coordinator).1.Good ∧ Tab.Effect (s.tabs index)
        ((s.tabs index).run move s.coordinator).1 s.coordinator
        ((s.tabs index).run move s.coordinator).2 := Tab.run_good (h.good index) move
  rw [← step_self] at hgood heffect
  have hcoordinator : ((s.tabs index).run move s.coordinator).2 = (s.step index move).coordinator :=
    rfl
  rw [hcoordinator] at heffect
  refine ⟨fun other => ?_, ?_⟩
  · by_cases hother : other = index
    · rw [hother]
      exact hgood
    · rw [step_other hother]
      exact h.good other
  have hothers : ∀ {holder : Nat}, holder ≠ index → (s.step index move).tabs holder =
    s.tabs holder :=
    step_other
  rcases h.held with ⟨hactive, hmemory, hnone⟩ | ⟨holder, hactive, hpermit, hmemory, hnone⟩
  · have hcharges := ((h.good index).unheld (hnone index)).1
    rcases heffect with ⟨hsame, hstays, hcharged⟩ | ⟨serial, hserial, -, -, htaken, hnext, hkept,
      hsame⟩ |
      ⟨permit, hpermit, -⟩
    · refine .inl ⟨hstays.trans hactive, ?_, fun other => ?_⟩
      · have hzero := (hgood.unheld (hsame.trans (hnone index))).1
        have hsum := hcharged (by omega)
        omega
      · by_cases hother : other = index
        · rw [hother]
          exact hsame.trans (hnone index)
        · rw [hothers hother]
          exact hnone other
    · refine .inr ⟨index, by rwa [hnext], by rw [htaken, hnext], by rw [hsame, hkept, hmemory,
        hcharges],
        fun other hother => ?_⟩
      rw [hothers hother]
      exact hnone other
    · rw [hnone index] at hpermit
      cases hpermit
  · by_cases hindex : holder = index
    · subst hindex
      rcases heffect with ⟨hsame, hstays, hcharged⟩ | ⟨serial, -, -, hzero, -⟩ |
        ⟨permit, hheld, hfree, hgone, hnothing, hdropped⟩
      · have hsum := hcharged (by omega)
        refine .inr ⟨holder, by rwa [hstays], by rw [hsame, hpermit, hstays], by omega,
          fun other hother => ?_⟩
        rw [hothers hother]
        exact hnone other hother
      · exact absurd hzero hactive
      · rw [hpermit] at hheld
        cases hheld
        have hdrop : (s.step holder move).coordinator = { s.coordinator with active := 0 } := by
          rw [hdropped, SortCoordinator.dropPermit, if_pos rfl]
        refine .inl ⟨by rw [hdrop], by rw [hdrop]; exact hmemory.trans hfree, fun other => ?_⟩
        by_cases hother : other = holder
        · rw [hother]
          exact hgone
        · rw [hothers hother]
          exact hnone other hother
    · have hunheld := hnone index (Ne.symm hindex)
      have hcharges := ((h.good index).unheld hunheld).1
      rcases heffect with ⟨hsame, hstays, hcharged⟩ | ⟨serial, -, -, hzero, -⟩ | ⟨permit, hheld, -⟩
      · have hzero := (hgood.unheld (hsame.trans hunheld)).1
        have hsum := hcharged (by omega)
        refine .inr ⟨holder, by rwa [hstays], ?_, ?_, fun other hother => ?_⟩
        · rw [hothers hindex, hpermit, hstays]
        · rw [hothers hindex]
          omega
        · by_cases heq : other = index
          · rw [heq]
            exact hsame.trans hunheld
          · rw [hothers heq]
            exact hnone other hother
      · exact absurd hzero hactive
      · rw [hunheld] at hheld
        cases hheld

theorem run_inv (moves : List (Nat × Move)) (h : s.Inv) : (s.run moves).Inv := by
  induction moves generalizing s with
  | nil => exact h
  | cons move moves ih => exact ih (step_inv h move.1 move.2)

theorem Inv.eq_of_permit (h : s.Inv) {other : Nat} (hindex : (s.tabs index).permit ≠ none)
    (hother : (s.tabs other).permit ≠ none) : index = other := by
  rcases h.held with ⟨-, -, hnone⟩ | ⟨holder, -, -, -, hnone⟩
  · exact absurd (hnone index) hindex
  · have hholder : ∀ place, (s.tabs place).permit ≠ none → place = holder := fun place hplace =>
      by_contra fun hne => hplace (hnone place hne)
    rw [hholder index hindex, hholder other hother]

theorem Inv.free_iff (h : s.Inv) :
    s.coordinator.active = 0 ↔ ∀ index, (s.tabs index).permit = none := by
  rcases h.held with ⟨hactive, -, hnone⟩ | ⟨holder, hactive, hpermit, -, -⟩
  · exact ⟨fun _ => hnone, fun _ => hactive⟩
  · refine ⟨fun h => absurd h hactive, fun h => ?_⟩
    rw [h holder] at hpermit
    cases hpermit

/-- Whose turn it is to drop the permit has nothing charged any more, and nobody else has. -/
theorem Inv.released (h : s.Inv) {active : ActiveSort} {next : Next}
    (hphase : (s.tabs index).phase = .dropping next) (hsort : (s.tabs index).sort = some active)
    (hpermit : active.permit ≠ none) (hsession : active.session = none)
    (hsource : active.sourceMemory = none) : s.coordinator.memory = 0 := by
  rcases h.held with ⟨-, hmemory, -⟩ | ⟨holder, -, hheld, hmemory, hnone⟩
  · exact hmemory
  · have hindex : index = holder := by_contra fun hne => by
      have hunheld := hnone index hne
      rw [Tab.permit_some hsort] at hunheld
      exact hpermit hunheld
    rw [hmemory, ← hindex]
    simp [Tab.charges, Tab.sessionCharges, hphase, hsort, hsession, hsource]

end Step

/-- In every run of any tabs: one sort at most holds the permit; a session and charged memory
are there only while their sort holds it, and are gone when it drops it; the coordinator is
free exactly while no sort holds the permit, and a waiting sort then gets it. -/
theorem one_sort_at_a_time (moves : List (Nat × Move)) :
    (∀ index other, ((new.run moves).tabs index).permit ≠ none →
      ((new.run moves).tabs other).permit ≠ none → index = other) ∧
    (∀ index, ((new.run moves).tabs index).HasSession ∨ ((new.run moves).tabs index).charges ≠ 0 →
      ((new.run moves).tabs index).permit ≠ none) ∧
    (∀ index next active, ((new.run moves).tabs index).phase = .dropping next →
      ((new.run moves).tabs index).sort = some active → active.permit ≠ none →
      active.session = none → active.sourceMemory = none →
      (new.run moves).coordinator.memory = 0) ∧
    ((new.run moves).coordinator.active = 0 ↔
      ∀ index, ((new.run moves).tabs index).permit = none) ∧
    ∀ index active, ((new.run moves).tabs index).phase = .acquiring →
      ((new.run moves).tabs index).sort = some active →
      (∀ other, ((new.run moves).tabs other).permit = none) →
      (((new.run moves).step index .acquire).tabs index).permit = some active.serial := by
  have hinv := run_inv moves new_inv
  refine ⟨fun index other => hinv.eq_of_permit, fun index hcharged hpermit => ?_,
    fun index next active => hinv.released, hinv.free_iff, fun index active hphase hsort hnone =>
      ?_⟩
  · obtain ⟨hzero, hsession⟩ := (hinv.good index).unheld hpermit
    rcases hcharged with h | h
    · exact hsession h
    · exact h hzero
  · have hfree := hinv.free_iff.mpr hnone
    rw [step_self]
    simp [Tab.run, Tab.atWork, hphase, hsort, SortCoordinator.tryAcquire, hfree, Tab.permit]

end System

end LeanRows.SortTabs
