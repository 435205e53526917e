import Mathlib

/-!
# Actions that may fail, in a world that moves

An action takes the world it is run in and hands back the next one, with a value or an
error. `Ensures` is partial correctness in every world; `Returns` adds that no world makes
the action fail. The worlds themselves are never mentioned in a postcondition: what is
proved holds whatever happens between two actions.
-/

set_option autoImplicit false

def Exec (W ε α : Type) := W → Except ε α × W

namespace Exec

variable {W ε α β : Type}

instance : Monad (Exec W ε) where
  pure a := fun w => (.ok a, w)
  bind x f := fun w =>
    match x w with
    | (.ok a, w) => f a w
    | (.error e, w) => (.error e, w)

protected def throw (e : ε) : Exec W ε α := fun w => (.error e, w)

def ofExcept (r : Except ε α) : Exec W ε α := fun w => (r, w)

/-- Every value the action comes back with satisfies `P`. -/
def Ensures (x : Exec W ε α) (P : α → Prop) : Prop := ∀ w a, (x w).1 = .ok a → P a

/-- The action comes back with a value in every world, and it satisfies `P`. -/
def Returns (x : Exec W ε α) (P : α → Prop) : Prop := ∀ w, ∃ a, (x w).1 = .ok a ∧ P a

theorem bind_run (x : Exec W ε α) (f : α → Exec W ε β) (w : W) :
    ((x >>= f) w).1 = match x w with
      | (.ok a, w) => (f a w).1
      | (.error e, _) => .error e := by
  simp only [Bind.bind]
  rcases x w with ⟨_ | _, _⟩ <;> rfl

namespace Ensures

variable {x : Exec W ε α} {f : α → Exec W ε β} {P : α → Prop} {Q : β → Prop}

theorem pure {a : α} (h : P a) : Ensures (pure a : Exec W ε α) P := by
  intro w b hb
  cases hb
  exact h

theorem throw (e : ε) : Ensures (Exec.throw e : Exec W ε α) P := by
  intro w a ha
  cases ha

theorem bind (hx : Ensures x P) (hf : ∀ a, P a → Ensures (f a) Q) : Ensures (x >>= f) Q := by
  intro w b hb
  rw [bind_run] at hb
  rcases hrun : x w with ⟨e | a, w'⟩
  · simp [hrun] at hb
  · rw [hrun] at hb
    exact hf a (hx w a (by rw [hrun])) w' b hb

theorem mono {P' : α → Prop} (hx : Ensures x P) (h : ∀ a, P a → P' a) : Ensures x P' :=
  fun w a ha => h a (hx w a ha)

theorem ofExcept {r : Except ε α} (h : ∀ a, r = .ok a → P a) :
    Ensures (ofExcept r : Exec W ε α) P :=
  fun _ => h

theorem trivial : Ensures x fun _ => True := fun _ _ _ => True.intro

end Ensures

namespace Returns

variable {x : Exec W ε α} {f : α → Exec W ε β} {P : α → Prop} {Q : β → Prop}

theorem pure {a : α} (h : P a) : Returns (pure a : Exec W ε α) P := fun _ => ⟨a, rfl, h⟩

theorem bind (hx : Returns x P) (hf : ∀ a, P a → Returns (f a) Q) : Returns (x >>= f) Q := by
  intro w
  obtain ⟨a, hrun, ha⟩ := hx w
  obtain ⟨b, hb, hQ⟩ := hf a ha (x w).2
  refine ⟨b, ?_, hQ⟩
  rw [bind_run, ← Prod.mk.eta (p := x w), hrun]
  exact hb

theorem mono {P' : α → Prop} (hx : Returns x P) (h : ∀ a, P a → P' a) : Returns x P' := by
  intro w
  obtain ⟨a, hrun, ha⟩ := hx w
  exact ⟨a, hrun, h a ha⟩

theorem ofExcept {r : Except ε α} {a : α} (hr : r = .ok a) (h : P a) :
    Returns (ofExcept r : Exec W ε α) P := by
  intro w
  exact ⟨a, hr, h⟩

/-- What holds of every value holds of the value there is. -/
theorem and_ensures {Q : α → Prop} (hx : Returns x P) (h : Ensures x Q) :
    Returns x fun a => P a ∧ Q a := by
  intro w
  obtain ⟨a, hrun, hP⟩ := hx w
  exact ⟨a, hrun, hP, h w a hrun⟩

end Returns

/-- Every error the action comes back with satisfies `Q`. -/
def Raises (x : Exec W ε α) (Q : ε → Prop) : Prop := ∀ w e, (x w).1 = .error e → Q e

namespace Raises

variable {x : Exec W ε α} {f : α → Exec W ε β} {P : α → Prop} {Q : ε → Prop}

theorem pure {a : α} : Raises (pure a : Exec W ε α) Q := by
  intro w e he
  cases he

theorem ofExcept {r : Except ε α} (h : ∀ e, r = .error e → Q e) :
    Raises (ofExcept r : Exec W ε α) Q :=
  fun _ => h

theorem bind (hx : Raises x Q) (hP : Ensures x P) (hf : ∀ a, P a → Raises (f a) Q) :
    Raises (x >>= f) Q := by
  intro w e he
  rw [bind_run] at he
  rcases hrun : x w with ⟨e' | a, w'⟩
  · rw [hrun] at he
    cases he
    exact hx w e (by rw [hrun])
  · rw [hrun] at he
    exact hf a (hP w a (by rw [hrun])) w' e he

theorem mono {Q' : ε → Prop} (hx : Raises x Q) (h : ∀ e, Q e → Q' e) : Raises x Q' :=
  fun w e he => h e (hx w e he)

/-- An action that always comes back with a value raises nothing. -/
theorem of_returns (hx : Returns x P) : Raises x fun _ => False := by
  intro w e he
  obtain ⟨a, ha, -⟩ := hx w
  cases he.symm.trans ha

end Raises

/-! ## Triples

Where the world is what the argument is about, a triple says what a value and what an
error leave of it.
-/

/-- From a world in `pre`, a value leaves one in `post` and an error one in `fail`. -/
def Triple (pre : W → Prop) (x : Exec W ε α) (post : α → W → Prop) (fail : ε → W → Prop) :
    Prop :=
  ∀ w, pre w → match x w with
    | (.ok a, w') => post a w'
    | (.error e, w') => fail e w'

namespace Triple

variable {x : Exec W ε α} {f : α → Exec W ε β} {pre pre' : W → Prop} {mid : α → W → Prop}
  {post : β → W → Prop} {fail : ε → W → Prop}

theorem pure {b : β} (h : ∀ w, pre w → post b w) :
    Triple pre (pure b : Exec W ε β) post fail := h

theorem throw {e : ε} (h : ∀ w, pre w → fail e w) :
    Triple pre (Exec.throw e : Exec W ε β) post fail := h

theorem bind (hx : Triple pre x mid fail) (hf : ∀ a, Triple (mid a) (f a) post fail) :
    Triple pre (x >>= f) post fail := by
  intro w hw
  have hfirst := hx w hw
  change match (match x w with | (.ok a, w) => f a w | (.error e, w) => (.error e, w)) with
    | (.ok b, w') => post b w'
    | (.error e, w') => fail e w'
  rcases hrun : x w with ⟨e | a, w'⟩
  · rw [hrun] at hfirst
    exact hfirst
  · rw [hrun] at hfirst
    exact hf a w' hfirst

theorem weaken {post' : α → W → Prop} {fail' : ε → W → Prop} (hx : Triple pre' x post' fail')
    (hpre : ∀ w, pre w → pre' w) (hpost : ∀ a w, post' a w → mid a w)
    (hfail : ∀ e w, fail' e w → fail e w) : Triple pre x mid fail := by
  intro w hw
  have hrun := hx w (hpre w hw)
  revert hrun
  rcases x w with ⟨e | a, w'⟩
  · exact hfail e w'
  · exact hpost a w'

theorem post_mono {post' : α → W → Prop} (hx : Triple pre x post' fail)
    (h : ∀ a w, post' a w → mid a w) : Triple pre x mid fail :=
  hx.weaken (fun _ hw => hw) h fun _ _ he => he

theorem pre_mono (hx : Triple pre' x mid fail) (h : ∀ w, pre w → pre' w) :
    Triple pre x mid fail :=
  hx.weaken h (fun _ _ ha => ha) fun _ _ he => he

theorem ensures {P : α → Prop} {I : W → Prop}
    (h : Triple I x (fun a _ => P a) fail) (hI : ∀ w, I w) : Ensures x P := by
  intro w a ha
  have hrun := h w (hI w)
  rcases hx : x w with ⟨e | b, w'⟩
  · rw [hx] at ha
    cases ha
  · rw [hx] at ha hrun
    cases ha
    exact hrun

/-- A fact that does not depend on the world may be used to prove the triple. -/
theorem of_pre {P : Prop} (h : P → Triple pre x mid fail) :
    Triple (fun w => P ∧ pre w) x mid fail :=
  fun w hw => h hw.1 w hw.2

end Triple

section State
variable {S : Type}

/-- The state an action carries beside the world. -/
protected def get : Exec (S × W) ε S := fun p => (.ok p.1, p)

protected def modify (f : S → S) : Exec (S × W) ε Unit := fun p => (.ok (), f p.1, p.2)

/-- An action of the world alone. -/
def inner (x : Exec W ε α) : Exec (S × W) ε α := fun p => ((x p.2).1, p.1, (x p.2).2)

namespace Triple

variable {pre : S × W → Prop} {fail : ε → S × W → Prop}

theorem modify {f : S → S} {post : Unit → S × W → Prop}
    (h : ∀ s w, pre (s, w) → post () (f s, w)) :
    Triple pre (Exec.modify f : Exec (S × W) ε Unit) post fail :=
  fun p hp => h p.1 p.2 hp

end Triple

end State

/-! ### What an action keeps however it ends -/

/-- In a world of `I` the two actions come to the same result, and to a world of `I`. -/
def AgreeOn (I : W → Prop) (x x' : Exec W ε α) : Prop := ∀ w, I w → x' w = x w ∧ I (x w).2

/-- The action stays in `I`. -/
abbrev Preserves (I : W → Prop) (x : Exec W ε α) : Prop := AgreeOn I x x

namespace AgreeOn

variable {I : W → Prop} {x x' : Exec W ε α} {f f' : α → Exec W ε β}

theorem self (h : ∀ w, I w → I (x w).2) : AgreeOn I x x := fun w hw => ⟨rfl, h w hw⟩

theorem pure {b : β} : AgreeOn I (pure b : Exec W ε β) (pure b) := .self fun _ hw => hw

theorem throw {e : ε} : AgreeOn I (Exec.throw e : Exec W ε β) (Exec.throw e) :=
  .self fun _ hw => hw

theorem bind (hx : AgreeOn I x x') (hf : ∀ a, AgreeOn I (f a) (f' a)) :
    AgreeOn I (x >>= f) (x' >>= f') := by
  intro w hw
  obtain ⟨hrun, hnext⟩ := hx w hw
  simp only [Bind.bind, hrun]
  rcases hfirst : x w with ⟨e | a, w'⟩
  · rw [hfirst] at hnext
    exact ⟨rfl, hnext⟩
  · rw [hfirst] at hnext
    exact hf a w' hnext

theorem get {S : Type} {I : S × W → Prop} :
    AgreeOn I (Exec.get : Exec (S × W) ε S) Exec.get := .self fun _ hw => hw

theorem get_bind {S : Type} {I : S × W → Prop} {g g' : S → Exec (S × W) ε β}
    (h : ∀ s w, I (s, w) → AgreeOn I (g s) (g' s)) :
    AgreeOn I (Exec.get >>= g) (Exec.get >>= g') :=
  fun p hp => h p.1 p.2 hp p hp

theorem modify {S : Type} {I : S × W → Prop} {g : S → S}
    (h : ∀ s w, I (s, w) → I (g s, w)) :
    AgreeOn I (Exec.modify g : Exec (S × W) ε Unit) (Exec.modify g) :=
  .self fun p hp => h p.1 p.2 hp

theorem triple (h : Preserves I x) : Triple I x (fun _ => I) fun _ => I := by
  intro w hw
  have hnext := (h w hw).2
  rcases hrun : x w with ⟨e | a, w'⟩
  · rwa [hrun] at hnext
  · rwa [hrun] at hnext

theorem of_triple (h : Triple I x (fun _ => I) fun _ => I) : Preserves I x := by
  refine .self fun w hw => ?_
  have hnext := h w hw
  rcases hrun : x w with ⟨e | a, w'⟩
  · rwa [hrun] at hnext
  · rwa [hrun] at hnext

end AgreeOn

/-! ### What an action keeps where it comes back with a value -/

/-- In a world of `I` the two actions come to the same result; a value leaves a world of `I`, an
error one of `F`. -/
def AgreeTo (I F : W → Prop) (x x' : Exec W ε α) : Prop :=
  ∀ w, I w → x' w = x w ∧ match x w with
    | (.ok _, w') => I w'
    | (.error _, w') => F w'

namespace AgreeTo

variable {I F : W → Prop} {x x' : Exec W ε α} {f f' : α → Exec W ε β}

/-- Two actions that agree on `I` however they end. -/
theorem of_agreeOn (h : AgreeOn I x x') (hfails : ∀ w, I w → F w) : AgreeTo I F x x' := by
  intro w hw
  obtain ⟨hrun, hnext⟩ := h w hw
  refine ⟨hrun, ?_⟩
  rcases hx : x w with ⟨e | a, w'⟩
  · rw [hx] at hnext
    exact hfails w' hnext
  · rwa [hx] at hnext

theorem agreeOn (h : AgreeTo I I x x') : AgreeOn I x x' := by
  intro w hw
  obtain ⟨hrun, hnext⟩ := h w hw
  refine ⟨hrun, ?_⟩
  rcases hx : x w with ⟨e | a, w'⟩ <;> rwa [hx] at hnext

theorem pure {b : β} : AgreeTo I F (pure b : Exec W ε β) (pure b) := fun _ hw => ⟨rfl, hw⟩

theorem bind (hx : AgreeTo I F x x') (hf : ∀ a, AgreeTo I F (f a) (f' a)) :
    AgreeTo I F (x >>= f) (x' >>= f') := by
  intro w hw
  obtain ⟨hrun, hnext⟩ := hx w hw
  simp only [Bind.bind, hrun]
  rcases hfirst : x w with ⟨e | a, w'⟩
  · rw [hfirst] at hnext
    exact ⟨rfl, hnext⟩
  · rw [hfirst] at hnext
    exact hf a w' hnext

theorem get_bind {S : Type} {I F : S × W → Prop} {g g' : S → Exec (S × W) ε β}
    (h : ∀ s w, I (s, w) → AgreeTo I F (g s) (g' s)) :
    AgreeTo I F (Exec.get >>= g) (Exec.get >>= g') :=
  fun p hp => h p.1 p.2 hp p hp

end AgreeTo

/-! ### Running an action step by step -/

section Run
variable {S : Type} {x : Exec W ε α} {f : α → Exec W ε β} {w w' : W} {a : α} {e : ε}

@[simp] theorem run_pure (b : β) (w : W) : (pure b : Exec W ε β) w = (.ok b, w) := rfl

@[simp] theorem run_throw (e : ε) (w : W) :
    (Exec.throw e : Exec W ε β) w = (.error e, w) := rfl

theorem run_bind_ok (h : x w = (.ok a, w')) : (x >>= f) w = f a w' := by
  simp only [Bind.bind, h]

theorem run_bind_error (h : x w = (.error e, w')) : (x >>= f) w = (.error e, w') := by
  simp only [Bind.bind, h]

@[simp] theorem run_get_bind (f : S → Exec (S × W) ε β) (s : S) (w : W) :
    (Exec.get >>= f) (s, w) = f s (s, w) := rfl

@[simp] theorem run_modify (g : S → S) (s : S) (w : W) :
    (Exec.modify g : Exec (S × W) ε Unit) (s, w) = (.ok (), g s, w) := rfl

@[simp] theorem run_modify_bind (g : S → S) (f : Unit → Exec (S × W) ε β) (s : S) (w : W) :
    (Exec.modify g >>= f) (s, w) = f () (g s, w) := rfl

end Run

/-! ## Work taken up again -/

variable {S : Type}

/-- Calls on a schedule of budgets, until one of them comes to a result. What a call leaves
of its budget is not carried over. -/
def resume (call : Nat → S → Exec W ε (Option α × Nat × S)) :
    List Nat → S → Exec W ε (Option α × S)
  | [], s => pure (none, s)
  | budget :: budgets, s => do
    let r ← call budget s
    match r with
    | (some a, _, s) => pure (some a, s)
    | (none, _, s) => resume call budgets s

section Resume
variable {call : Nat → S → Exec W ε (Option α × Nat × S)} (Inv : S → Prop) (P : α → Prop)

theorem resume_ensures
    (h : ∀ budget s, Inv s → (call budget s).Ensures fun r =>
      match r with
      | (some a, _) => P a
      | (none, _, s') => Inv s')
    (budgets : List Nat) {s : S} (hs : Inv s) :
    (resume call budgets s).Ensures fun r => ∀ a, r.1 = some a → P a := by
  induction budgets generalizing s with
  | nil => exact .pure fun _ h => nomatch h
  | cons budget budgets ih =>
    refine Ensures.bind (h budget s hs) ?_
    rintro ⟨_ | a, left, s'⟩ hr
    · exact ih hr
    · refine .pure ?_
      rintro _ ⟨⟩
      exact hr

/-- A call on a positive budget that comes to no result has left less to do, so enough of
them do come to one, if none of them fails. -/
theorem resume_settles (todo : S → Nat)
    (h : ∀ budget s, Inv s → 0 < budget → (call budget s).Ensures fun r =>
      match r with
      | (some a, _) => P a
      | (none, _, s') => Inv s' ∧ todo s' < todo s)
    {budgets : List Nat} (hpos : ∀ budget ∈ budgets, 0 < budget) {s : S} (hs : Inv s)
    (henough : todo s < budgets.length) :
    (resume call budgets s).Ensures fun r => ∃ a, r.1 = some a ∧ P a := by
  induction budgets generalizing s with
  | nil => exact absurd henough (Nat.not_lt_zero _)
  | cons budget budgets ih =>
    refine Ensures.bind (h budget s hs (hpos budget List.mem_cons_self)) ?_
    rintro ⟨_ | a, left, s'⟩ hr
    · refine ih (fun b hb => hpos b (List.mem_cons_of_mem _ hb)) hr.1 ?_
      have := hr.2
      rw [List.length_cons] at henough
      omega
    · exact .pure ⟨a, rfl, hr⟩

theorem resume_returns (todo : S → Nat)
    (h : ∀ budget s, Inv s → 0 < budget → (call budget s).Returns fun r =>
      match r with
      | (some a, _) => P a
      | (none, _, s') => Inv s' ∧ todo s' < todo s)
    {budgets : List Nat} (hpos : ∀ budget ∈ budgets, 0 < budget) {s : S} (hs : Inv s)
    (henough : todo s < budgets.length) :
    (resume call budgets s).Returns fun r => ∃ a, r.1 = some a ∧ P a := by
  induction budgets generalizing s with
  | nil => exact absurd henough (Nat.not_lt_zero _)
  | cons budget budgets ih =>
    refine Returns.bind (h budget s hs (hpos budget List.mem_cons_self)) ?_
    rintro ⟨_ | a, left, s'⟩ hr
    · refine ih (fun b hb => hpos b (List.mem_cons_of_mem _ hb)) hr.1 ?_
      have := hr.2
      rw [List.length_cons] at henough
      omega
    · exact .pure ⟨a, rfl, hr⟩

/-- What a call comes to: a result, or a state to go on from. -/
def CallEnds (r : Option α × Nat × S) : Prop :=
  match r with
  | (some a, _) => P a
  | (none, _, s) => Inv s

theorem resume_triple {I : W → Prop}
    (h : ∀ budget s, Inv s →
      Triple I (call budget s) (fun r w => I w ∧ CallEnds Inv P r) fun _ => I)
    (budgets : List Nat) {s : S} (hs : Inv s) :
    Triple I (resume call budgets s) (fun r w => I w ∧ ∀ a, r.1 = some a → P a) fun _ => I := by
  induction budgets generalizing s with
  | nil => exact .pure fun _ hw => ⟨hw, fun _ h => nomatch h⟩
  | cons budget budgets ih =>
    refine .bind (h budget s hs) ?_
    rintro ⟨_ | a, left, s'⟩ w ⟨hw, hr⟩
    · exact ih hr w hw
    · refine ⟨hw, ?_⟩
      rintro _ ⟨⟩
      exact hr

theorem resume_raises {Q : ε → Prop}
    (hcall : ∀ budget s, Inv s → (call budget s).Raises Q)
    (hstep : ∀ budget s, Inv s → (call budget s).Ensures fun r => r.1 = none → Inv r.2.2)
    (budgets : List Nat) {s : S} (hs : Inv s) : (resume call budgets s).Raises Q := by
  induction budgets generalizing s with
  | nil => exact .pure
  | cons budget budgets ih =>
    refine Raises.bind (hcall budget s hs) (hstep budget s hs) ?_
    rintro ⟨_ | a, left, s'⟩ hr
    · exact ih (hr rfl)
    · exact .pure

end Resume

end Exec
