import Mathlib

/-!
# A server among other threads

The code of a thread is a program of atomic actions on a shared state. A server runs a pass
of its code over and over, and may sleep between two passes until the state wakes it. The
other threads move in between any two actions. `Safe` proves a program against everything
they may do; its rules ask for stability where the others can get in.
-/

set_option autoImplicit false

/-- Code of one thread. An action takes a choice, for what the shared state leaves open. -/
inductive Prog (S C α : Type) : Type 1 where
  | ret (a : α)
  | act {R : Type} (f : C → S → R × S) (k : R → Prog S C α)

/-- What the other threads may do, and which of their moves are made at all. -/
structure Others (S M : Type) where
  move : M → S → S
  allowed : M → S → Prop

/-- The moves of the others keep it. -/
def Others.Stable {S M : Type} (others : Others S M) (P : S → Prop) : Prop :=
  ∀ m s, others.allowed m s → P s → P (others.move m s)

namespace Others

variable {S M : Type} {others : Others S M} {P P' : S → Prop}

theorem Stable.and (h : others.Stable P) (h' : others.Stable P') :
    others.Stable fun s => P s ∧ P' s :=
  fun m s hm hs => ⟨h m s hm hs.1, h' m s hm hs.2⟩

theorem Stable.const (A : Prop) : others.Stable fun _ => A := fun _ _ _ h => h

/-- The others, as long as what their moves show is in `P`. -/
def showing {E : Type} (others : Others S M) (observe : M → S → Option E) (P : E → Prop) :
    Others S M where
  move := others.move
  allowed m s := others.allowed m s ∧ ∀ e ∈ observe m s, P e

end Others

namespace Prog

variable {S C M α β R : Type}

protected def bind : Prog S C α → (α → Prog S C β) → Prog S C β
  | ret a, g => g a
  | act f k, g => act f fun r => (k r).bind g

instance : Monad (Prog S C) where
  pure := ret
  bind := Prog.bind

/-- One action. -/
def atomic (f : S → R × S) : Prog S C R := act (fun _ => f) ret

def choose (f : C → S → R × S) : Prog S C R := act f ret

/-- From a state in `P`, with the others moving in front of every action, the program ends in
`Q`, and every state it meets is in `J`. -/
def Safe (others : Others S M) (J : S → Prop) :
    Prog S C α → (S → Prop) → (α → S → Prop) → Prop
  | ret a, P, Q => ∀ s, P s → Q a s
  | act f k, P, Q => ∃ I : S → Prop, (∀ s, P s → I s) ∧ others.Stable I ∧ (∀ s, I s → J s) ∧
      ∃ N : _ → S → Prop, (∀ c s, I s → N (f c s).1 (f c s).2) ∧
        ∀ r, Safe others J (k r) (N r) Q

namespace Safe

variable {others : Others S M} {J : S → Prop} {P P' : S → Prop} {Q : α → S → Prop}
  {Q' : β → S → Prop} {p : Prog S C α} {g : α → Prog S C β}

theorem pure {a : α} (h : ∀ s, P s → Q a s) :
    Safe others J (pure a : Prog S C α) P Q := h

theorem post_mono {Q' : α → S → Prop} (hp : Safe others J p P Q) (h : ∀ a s, Q a s → Q' a s) :
    Safe others J p P Q' := by
  induction p generalizing P with
  | ret a => exact fun s hs => h a s (hp s hs)
  | act f k ih =>
    obtain ⟨I, hI, hstable, hJ, N, hact, hk⟩ := hp
    exact ⟨I, hI, hstable, hJ, N, hact, fun r => ih r (hk r)⟩

theorem pre_mono (hp : Safe others J p P Q) (h : ∀ s, P' s → P s) : Safe others J p P' Q := by
  cases p with
  | ret a => exact fun s hs => hp s (h s hs)
  | act f k =>
    obtain ⟨I, hI, hrest⟩ := hp
    exact ⟨I, fun s hs => hI s (h s hs), hrest⟩

theorem bind (hp : Safe others J p P Q) (hg : ∀ a, Safe others J (g a) (Q a) Q') :
    Safe others J (p >>= g) P Q' := by
  induction p generalizing P with
  | ret a => exact (hg a).pre_mono hp
  | act f k ih =>
    obtain ⟨I, hI, hstable, hJ, N, hact, hk⟩ := hp
    exact ⟨I, hI, hstable, hJ, N, hact, fun r => ih r (hk r)⟩

theorem choose {f : C → S → α × S} (hstable : others.Stable P) (hJ : ∀ s, P s → J s)
    (h : ∀ c s, P s → Q (f c s).1 (f c s).2) : Safe others J (Prog.choose f) P Q :=
  ⟨P, fun _ hs => hs, hstable, hJ, Q, h, fun _ _ hs => hs⟩

theorem atomic {f : S → α × S} (hstable : others.Stable P) (hJ : ∀ s, P s → J s)
    (h : ∀ s, P s → Q (f s).1 (f s).2) : Safe others J (Prog.atomic f : Prog S C α) P Q :=
  choose hstable hJ fun _ => h

/-- Nothing is to be proved where nothing can be. -/
theorem absurd_pre (h : ∀ s, ¬ P s) : Safe others J p P Q := by
  induction p generalizing P with
  | ret a => exact fun s hs => absurd hs (h s)
  | act f k ih =>
    exact ⟨fun _ => False, h, fun _ _ _ hs => hs, fun _ hs => hs.elim, fun _ _ => False,
      fun _ _ hs => hs, fun r => ih r fun _ hs => hs⟩

/-- A fact that does not depend on the state may be used to prove the rest. -/
theorem of_pre {A : Prop} (h : A → Safe others J p P Q) :
    Safe others J p (fun s => A ∧ P s) Q := by
  by_cases hA : A
  · exact (h hA).pre_mono fun s hs => hs.2
  · exact absurd_pre fun s hs => hA hs.1

end Safe

/-! ### Actions that keep a relation -/

/-- Every action of the program keeps the relation, whatever it meets. -/
def Keeps (K : S → S → Prop) : Prog S C α → Prop
  | ret _ => True
  | act f k => (∀ c s, K s (f c s).2) ∧ ∀ r, Keeps K (k r)

namespace Keeps

variable {others : Others S M} {J P : S → Prop} {K : S → S → Prop} {p : Prog S C α}
  {g : α → Prog S C β}

theorem pure (a : α) : Keeps K (Pure.pure a : Prog S C α) := trivial

theorem bind (hp : Keeps K p) (hg : ∀ a, Keeps K (g a)) : Keeps K (p >>= g) := by
  induction p with
  | ret a => exact hg a
  | act f k ih => exact ⟨hp.1, fun r => ih r (hp.2 r)⟩

theorem mono {K' : S → S → Prop} (hp : Keeps K p) (h : ∀ s s', K s s' → K' s s') :
    Keeps K' p := by
  induction p with
  | ret a => trivial
  | act f k ih => exact ⟨fun c s => h s _ (hp.1 c s), fun r => ih r (hp.2 r)⟩

theorem map (hp : Keeps K p) (h : α → β) : Keeps K (h <$> p) := hp.bind fun a => pure (h a)

theorem choose {f : C → S → α × S} (h : ∀ c s, K s (f c s).2) : Keeps K (Prog.choose f) :=
  ⟨h, fun _ => trivial⟩

theorem atomic {f : S → α × S} (h : ∀ s, K s (f s).2) : Keeps K (Prog.atomic f : Prog S C α) :=
  choose fun _ => h

/-- What the others and the relation keep holds behind the program, too. -/
theorem safe (hp : Keeps K p) (hstable : others.Stable P) (hJ : ∀ s, P s → J s)
    (hK : ∀ s s', K s s' → P s → P s') : Safe others J p P fun _ => P := by
  induction p with
  | ret a => exact fun s hs => hs
  | act f k ih =>
    exact ⟨P, fun s hs => hs, hstable, hJ, fun _ => P, fun c s hs => hK s _ (hp.1 c s) hs,
      fun r => ih r (hp.2 r)⟩

end Keeps

/-! ### Values -/

/-- The program keeps what holds of every state, and what it comes back with satisfies `Q`. -/
def Yields (others : Others S M) (J : S → Prop) (p : Prog S C α) (Q : α → Prop) : Prop :=
  Safe others J p J fun a s => J s ∧ Q a

namespace Yields

variable {others : Others S M} {J : S → Prop} {p : Prog S C α} {Q Q' : α → Prop}
  {R' : β → Prop} {g : α → Prog S C β}

theorem pure {a : α} (h : Q a) : Yields others J (Pure.pure a : Prog S C α) Q :=
  fun _ hs => ⟨hs, h⟩

theorem bind (hp : Yields others J p Q) (hg : ∀ a, Q a → Yields others J (g a) R') :
    Yields others J (p >>= g) R' :=
  Safe.bind hp fun a =>
    (Safe.of_pre (hg a)).pre_mono fun _ h => ⟨h.2, h.1⟩

theorem mono (hp : Yields others J p Q) (h : ∀ a, Q a → Q' a) : Yields others J p Q' :=
  Safe.post_mono hp fun _ _ hs => ⟨hs.1, h _ hs.2⟩

theorem choose {f : C → S → α × S} (hstable : others.Stable J)
    (h : ∀ c s, J s → J (f c s).2 ∧ Q (f c s).1) : Yields others J (Prog.choose f) Q :=
  Safe.choose hstable (fun _ hs => hs) h

theorem atomic {f : S → α × S} (hstable : others.Stable J)
    (h : ∀ s, J s → J (f s).2 ∧ Q (f s).1) : Yields others J (Prog.atomic f : Prog S C α) Q :=
  choose hstable fun _ => h

end Yields

end Prog

/-! ## Servers -/

/-- How a pass ends: with another one, in the sleep between two, or for good. -/
inductive Next (L : Type) where
  | again (l : L)
  | sleep (l : L)
  | stop

inductive Thread (S C L : Type) : Type 1 where
  | asleep (l : L)
  | awake (p : Prog S C (Next L))
  | stopped

/-- The thread is in front of actions that keep the relation. -/
def Thread.Keeps {S C L : Type} (K : S → S → Prop) : Thread S C L → Prop
  | .awake p => p.Keeps K
  | .asleep _ | .stopped => True

/-- What a server does from what it keeps between two passes, and what wakes it. A call that
wakes it may also be the one to leave. -/
structure Server (S C L : Type) where
  pass : L → Prog S C (Next L)
  wake : S → Option (Bool × S)

structure Config (S C L : Type) : Type 1 where
  state : S
  thread : Thread S C L

namespace Server

variable {S C M L : Type} (server : Server S C L)

def goOn : Next L → Thread S C L
  | .again l => .awake (server.pass l)
  | .sleep l => .asleep l
  | .stop => .stopped

/-- One move of the server itself; asleep it moves only when it is woken. -/
def work (c : C) (config : Config S C L) : Config S C L :=
  match config.thread with
  | .asleep l =>
    match server.wake config.state with
    | none => config
    | some (true, s) => ⟨s, .awake (server.pass l)⟩
    | some (false, s) => ⟨s, .stopped⟩
  | .awake (.ret next) => ⟨config.state, server.goOn next⟩
  | .awake (.act f k) => ⟨(f c config.state).2, .awake (k (f c config.state).1)⟩
  | .stopped => config

/-- The configurations a run can come to when the others make allowed moves only. -/
inductive Reaches (others : Others S M) (start : Config S C L) : Config S C L → Prop where
  | refl : Reaches others start start
  | other {config : Config S C L} (m : M) (h : Reaches others start config)
      (hm : others.allowed m config.state) :
      Reaches others start ⟨others.move m config.state, config.thread⟩
  | work {config : Config S C L} (c : C) (h : Reaches others start config) :
      Reaches others start (server.work c config)

section Invariant
variable {server} {others : Others S M} {J : S → Prop}

/-- What holds of what the server keeps and of the state, asleep and in front of a pass. -/
structure Invariant (server : Server S C L) (others : Others S M) (J : S → Prop) where
  asleep : L → S → Prop
  awake : L → S → Prop
  stable : others.Stable J
  asleep_stable : ∀ l, others.Stable (asleep l)
  asleep_in : ∀ l s, asleep l s → J s
  awake_stable : ∀ l, others.Stable (awake l)
  awake_in : ∀ l s, awake l s → J s
  wakes : ∀ l s s', asleep l s → server.wake s = some (true, s') → awake l s'
  leaves : ∀ l s s', asleep l s → server.wake s = some (false, s') → J s'
  pass : ∀ l, Prog.Safe others J (server.pass l) (awake l) fun next s =>
    match next with
    | .again l => awake l s
    | .sleep l => asleep l s
    | .stop => J s

namespace Invariant

variable (inv : Invariant server others J)

/-- What holds where a pass has come to its end. -/
def after : Next L → S → Prop
  | .again l => inv.awake l
  | .sleep l => inv.asleep l
  | .stop => J

/-- Where a run that keeps the invariant can be. -/
inductive At : Config S C L → Prop where
  | asleep {l : L} {s : S} (h : inv.asleep l s) : At ⟨s, .asleep l⟩
  | awake {p : Prog S C (Next L)} {s : S} (P : S → Prop) (hs : P s) (hstable : others.Stable P)
      (hJ : ∀ s, P s → J s) (h : Prog.Safe others J p P inv.after) : At ⟨s, .awake p⟩
  | stopped {s : S} (h : J s) : At ⟨s, .stopped⟩

variable {inv}

theorem pass_safe (l : L) : Prog.Safe others J (server.pass l) (inv.awake l) inv.after := by
  apply (inv.pass l).post_mono
  rintro (l | l | _) s hs <;> exact hs

/-- A program that is safe can be taken up with the others in between. -/
theorem At.of_safe {p : Prog S C (Next L)} {P : S → Prop} {s : S}
    (h : Prog.Safe others J p P inv.after) (hs : P s) : inv.At ⟨s, .awake p⟩ := by
  cases p with
  | ret next =>
    have hafter := h s hs
    cases next with
    | again l =>
      exact .awake (inv.awake l) hafter (inv.awake_stable l) (inv.awake_in l) fun _ h => h
    | sleep l =>
      exact .awake (inv.asleep l) hafter (inv.asleep_stable l) (inv.asleep_in l) fun _ h => h
    | stop => exact .awake J hafter inv.stable (fun _ h => h) fun _ h => h
  | act f k =>
    obtain ⟨I, hI, hstable, hJ, hrest⟩ := h
    exact .awake I (hI s hs) hstable hJ ⟨I, fun _ h => h, hstable, hJ, hrest⟩

theorem At.other {config : Config S C L} (h : inv.At config) (m : M)
    (hm : others.allowed m config.state) :
    inv.At ⟨others.move m config.state, config.thread⟩ := by
  cases h with
  | asleep h => exact .asleep (inv.asleep_stable _ m _ hm h)
  | awake P hs hstable hJ h => exact .awake P (hstable m _ hm hs) hstable hJ h
  | stopped h => exact .stopped (inv.stable m _ hm h)

theorem At.work {config : Config S C L} (h : inv.At config) (c : C) :
    inv.At (server.work c config) := by
  cases h with
  | @asleep l s h =>
    unfold Server.work
    dsimp only
    split
    · exact .asleep h
    · rename_i s' hwake
      exact .of_safe (pass_safe l) (inv.wakes l s s' h hwake)
    · rename_i s' hwake
      exact .stopped (inv.leaves l s s' h hwake)
  | @awake p s P hs hstable hJ h =>
    cases p with
    | ret next =>
      have hafter := h s hs
      cases next with
      | again l => exact .of_safe (pass_safe l) hafter
      | sleep l => exact .asleep hafter
      | stop => exact .stopped hafter
    | act f k =>
      obtain ⟨I, hI, -, -, N, hact, hk⟩ := h
      exact .of_safe (hk _) (hact c s (hI s hs))
  | stopped h => exact .stopped h

theorem At.reaches {start config : Config S C L} (h : inv.At start)
    (hrun : Reaches server others start config) : inv.At config := by
  induction hrun with
  | refl => exact h
  | other m _ hm ih => exact ih.other m hm
  | work c _ ih => exact ih.work c

theorem At.in {config : Config S C L} (h : inv.At config) : J config.state := by
  cases h with
  | asleep h => exact inv.asleep_in _ _ h
  | awake P hs _ hJ _ => exact hJ _ hs
  | stopped h => exact h

theorem At.asleep_of {l : L} {s : S} (h : inv.At ⟨s, .asleep l⟩) : inv.asleep l s := by
  cases h with
  | asleep h => exact h

end Invariant

end Invariant

/-! ### Runs that are listed -/

/-- A move of a run: of the others, or of the server with its choice. -/
inductive Move (M C : Type) where
  | other (m : M)
  | work (c : C)

def run (others : Others S M) : List (Move M C) → Config S C L → Config S C L
  | [], config => config
  | .other m :: moves, config =>
    run others moves ⟨others.move m config.state, config.thread⟩
  | .work c :: moves, config => run others moves (server.work c config)

/-- Every move of the others in the list is allowed where it is made. -/
def Admits (others : Others S M) : List (Move M C) → Config S C L → Prop
  | [], _ => True
  | .other m :: moves, config => others.allowed m config.state ∧
    Admits others moves ⟨others.move m config.state, config.thread⟩
  | .work c :: moves, config => Admits others moves (server.work c config)

def decidableAdmits (others : Others S M) [∀ m s, Decidable (others.allowed m s)] :
    (moves : List (Move M C)) → (config : Config S C L) →
      Decidable (server.Admits others moves config)
  | [], _ => .isTrue trivial
  | .other m :: moves, config => @instDecidableAnd _ _ inferInstance
    (decidableAdmits others moves ⟨others.move m config.state, config.thread⟩)
  | .work c :: moves, config => decidableAdmits others moves (server.work c config)

instance (others : Others S M) [∀ m s, Decidable (others.allowed m s)] (moves : List (Move M C))
    (config : Config S C L) : Decidable (server.Admits others moves config) :=
  server.decidableAdmits others moves config

theorem reaches_run {others : Others S M} (moves : List (Move M C)) {start config : Config S C L}
    (h : Reaches server others start config) (hadmits : server.Admits others moves config) :
    Reaches server others start (server.run others moves config) := by
  induction moves generalizing config with
  | nil => exact h
  | cons move moves ih =>
    cases move with
    | other m => exact ih (.other m h hadmits.1) hadmits.2
    | work c => exact ih (.work c h) hadmits

/-! ### What is seen of a run -/

section Observed
variable {server} {E : Type} {others : Others S M} {observe : M → S → Option E}

/-- What the moves of the others show in a run, one after the other. -/
def observed (others : Others S M) (observe : M → S → Option E) :
    List (Move M C) → Config S C L → List E
  | [], _ => []
  | .other m :: moves, config => (observe m config.state).toList ++
    observed others observe moves ⟨others.move m config.state, config.thread⟩
  | .work c :: moves, config => observed others observe moves (server.work c config)

/-- A run is one of others that show nothing else. -/
theorem reaches_showing {P : E → Prop} (moves : List (Move M C)) {start config : Config S C L}
    (h : Reaches server (others.showing observe P) start config)
    (hadmits : server.Admits others moves config)
    (hP : ∀ e ∈ server.observed others observe moves config, P e) :
    Reaches server (others.showing observe P) start (server.run others moves config) := by
  induction moves generalizing config with
  | nil => exact h
  | cons move moves ih =>
    cases move with
    | other m =>
      refine ih (.other m h ⟨hadmits.1, fun e he => hP e ?_⟩) hadmits.2 fun e he => hP e ?_
      · exact List.mem_append_left _ (Option.mem_toList.mpr he)
      · exact List.mem_append_right _ he
    | work c => exact ih (.work c h) hadmits hP

/-- Whatever the server does keeps the relation. -/
structure Keeps (server : Server S C L) (K : S → S → Prop) : Prop where
  refl : ∀ s, K s s
  pass : ∀ l, (server.pass l).Keeps K
  wake : ∀ s stays s', server.wake s = some (stays, s') → K s s'

variable {K : S → S → Prop}

theorem Keeps.work (h : server.Keeps K) {config : Config S C L} (hthread : config.thread.Keeps K)
    (c : C) : K config.state (server.work c config).state ∧
      (server.work c config).thread.Keeps K := by
  obtain ⟨s, thread⟩ := config
  cases thread with
  | asleep l =>
    unfold Server.work
    dsimp only
    split
    · exact ⟨h.refl s, trivial⟩
    · rename_i s' hwake
      exact ⟨h.wake s true s' hwake, h.pass l⟩
    · rename_i s' hwake
      exact ⟨h.wake s false s' hwake, trivial⟩
  | awake p =>
    cases p with
    | ret next =>
      refine ⟨h.refl s, ?_⟩
      cases next with
      | again l => exact h.pass l
      | sleep l => trivial
      | stop => trivial
    | act f k => exact ⟨hthread.1 c s, hthread.2 _⟩
  | stopped => exact ⟨h.refl s, trivial⟩

/-- What holds of the state and of all that has been seen: a move of the others keeps it with
what it shows, and what the server keeps leaves it as it is. -/
theorem Keeps.observed (h : server.Keeps K) {P : List E → S → Prop}
    (hother : ∀ m s seen, others.allowed m s → P seen s →
      P (seen ++ (observe m s).toList) (others.move m s))
    (hwork : ∀ s s' seen, K s s' → P seen s → P seen s') (moves : List (Move M C))
    {config : Config S C L} (hthread : config.thread.Keeps K)
    (hadmits : server.Admits others moves config) {seen : List E} (hP : P seen config.state) :
    P (seen ++ server.observed others observe moves config)
      (server.run others moves config).state := by
  induction moves generalizing config seen with
  | nil =>
    rw [Server.observed, List.append_nil]
    exact hP
  | cons move moves ih =>
    cases move with
    | other m =>
      rw [Server.observed, ← List.append_assoc]
      have hnext : (Config.mk (others.move m config.state) config.thread).thread.Keeps K := hthread
      exact ih hnext hadmits.2 (hother m _ seen hadmits.1 hP)
    | work c =>
      obtain ⟨hkept, hnext⟩ := h.work hthread c
      exact ih hnext hadmits (hwork _ _ seen hkept hP)

end Observed

end Server
