import LeanRows.Lib.Exec

/-!
# Triples of actions on a state

Rules for programs that begin with a look at the state, a change of it, a choice or an
action of the world alone. A program is taken apart from its front; `p.1` is the state.
-/

set_option autoImplicit false

/-- Where a program comes back, both its parts do. -/
theorem Exec.ok_of_bind {W ε α β : Type} {x : Exec W ε α} {f : α → Exec W ε β} {w w' : W} {b : β}
    (h : (x >>= f) w = (.ok b, w')) : ∃ a mid, x w = (.ok a, mid) ∧ f a mid = (.ok b, w') := by
  simp only [Bind.bind] at h
  rcases hx : x w with ⟨error | a, mid⟩
  · rw [hx] at h
    cases h
  · rw [hx] at h
    exact ⟨a, mid, rfl, h⟩

theorem Exec.AgreeOn.ite {W ε α : Type} {I : W → Prop} {c : Prop} [Decidable c]
    {x x' y y' : Exec W ε α} (hx : c → AgreeOn I x x') (hy : ¬ c → AgreeOn I y y') :
    AgreeOn I (if c then x else y) (if c then x' else y') := by
  by_cases hc : c
  · rw [if_pos hc, if_pos hc]
    exact hx hc
  · rw [if_neg hc, if_neg hc]
    exact hy hc

namespace Exec.Triple

variable {W S ε α β : Type} {pre : S × W → Prop} {post : β → S × W → Prop}
  {fail : ε → S × W → Prop}

/-- The state that is looked at is the state there is. -/
theorem get_bind {f : S → Exec (S × W) ε β}
    (h : ∀ s, Triple (fun p => p.1 = s ∧ pre p) (f s) post fail) :
    Triple pre (Exec.get >>= f) post fail := by
  rintro ⟨s, w⟩ hp
  exact h s (s, w) ⟨rfl, hp⟩

/-- `bind` with what holds in between given. -/
theorem seq {x : Exec (S × W) ε α} {f : α → Exec (S × W) ε β} (mid : α → S × W → Prop)
    (hx : Triple pre x mid fail) (hf : ∀ a, Triple (mid a) (f a) post fail) :
    Triple pre (x >>= f) post fail :=
  hx.bind hf

theorem modify_bind {g : S → S} {f : Unit → Exec (S × W) ε β} (mid : S × W → Prop)
    (h : ∀ s w, pre (s, w) → mid (g s, w)) (hf : Triple mid (f ()) post fail) :
    Triple pre (Exec.modify g >>= f) post fail := by
  rintro ⟨s, w⟩ hp
  exact hf (g s, w) (h s w hp)

theorem ite {c : Prop} [Decidable c] {x y : Exec (S × W) ε β} (hx : c → Triple pre x post fail)
    (hy : ¬ c → Triple pre y post fail) : Triple pre (if c then x else y) post fail := by
  by_cases hc : c
  · rw [if_pos hc]
    exact hx hc
  · rw [if_neg hc]
    exact hy hc

theorem inner {x : Exec W ε β}
    (h : ∀ s, Triple (fun w => pre (s, w)) x (fun b w => post b (s, w)) fun e w => fail e (s, w)) :
    Triple pre (Exec.inner x) post fail := by
  rintro ⟨s, w⟩ hp
  have hrun := h s w hp
  simp only [Exec.inner]
  rcases hx : x w with ⟨e | a, w'⟩
  · rw [hx] at hrun
    exact hrun
  · rw [hx] at hrun
    exact hrun

theorem ofExcept_bind {r : Except ε α} {f : α → Exec (S × W) ε β}
    (hok : ∀ a, r = .ok a → Triple pre (f a) post fail)
    (herror : ∀ e, r = .error e → ∀ p, pre p → fail e p) :
    Triple pre (Exec.ofExcept r >>= f) post fail := by
  cases r with
  | error e => exact herror e rfl
  | ok a => exact hok a rfl

end Exec.Triple
