import Mathlib

/-!
# Stream machines with output

A machine reads one item at a time, may write some outputs for each, and writes a last
few when the input ends. What is still to be written from a state is `remaining`; feeding
a prefix of the input moves outputs out of it and changes nothing else.
-/

set_option autoImplicit false

structure Mealy (α β σ : Type) where
  step : σ → α → List β × σ
  finish : σ → List β

namespace Mealy

variable {α β σ : Type} (m : Mealy α β σ)

/-- The state after reading `xs`. -/
def after (s : σ) (xs : List α) : σ := xs.foldl (fun s x => (m.step s x).2) s

def outputs : σ → List α → List β
  | _, [] => []
  | s, x :: xs => (m.step s x).1 ++ outputs (m.step s x).2 xs

/-- Everything written from `s` on when `xs` is all the input left. -/
def remaining (s : σ) (xs : List α) : List β := m.outputs s xs ++ m.finish (m.after s xs)

@[simp] theorem after_nil (s : σ) : m.after s [] = s := rfl

@[simp] theorem after_cons (s : σ) (x : α) (xs : List α) :
    m.after s (x :: xs) = m.after (m.step s x).2 xs := rfl

@[simp] theorem remaining_nil (s : σ) : m.remaining s [] = m.finish s := rfl

theorem remaining_cons (s : σ) (x : α) (xs : List α) :
    m.remaining s (x :: xs) = (m.step s x).1 ++ m.remaining (m.step s x).2 xs := by
  simp [remaining, outputs]

end Mealy
