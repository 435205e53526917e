import Mathlib

/-!
# Slots

A table of places, each free or taken, and what its holders weigh together.
-/

set_option autoImplicit false

namespace Slots

variable {α : Type}

def total (weight : α → Nat) (slots : List (Option α)) : Nat :=
  (slots.map fun slot => slot.elim 0 weight).sum

variable {weight : α → Nat} {slots : List (Option α)} {slot : Option α} {index : Nat}

@[simp] theorem total_nil : total weight [] = 0 := rfl

@[simp] theorem total_cons :
    total weight (slot :: slots) = slot.elim 0 weight + total weight slots := by
  simp [total]

theorem total_append (more : List (Option α)) :
    total weight (slots ++ more) = total weight slots + total weight more := by
  simp [total]

/-- A place that changes hands: the old weight goes, the new one comes. -/
theorem total_set (weight : α → Nat) (h : slots[index]? = some slot) (next : Option α) :
    total weight (slots.set index next) + slot.elim 0 weight =
      total weight slots + next.elim 0 weight := by
  induction slots generalizing index with
  | nil => cases h
  | cons first slots ih =>
    cases index with
    | zero =>
      obtain rfl : first = slot := Option.some.inj h
      simp only [List.set_cons_zero, total_cons]
      omega
    | succ index =>
      have hrest := ih (show slots[index]? = some slot from h)
      simp only [List.set_cons_succ, total_cons]
      omega

theorem total_eq_zero (h : ∀ slot ∈ slots, slot = none) : total weight slots = 0 := by
  induction slots with
  | nil => rfl
  | cons slot slots ih =>
    rw [total_cons, h slot List.mem_cons_self, ih fun slot hmem =>
      h slot (List.mem_cons_of_mem _ hmem)]
    rfl

theorem total_replicate_none (count : Nat) :
    total weight (List.replicate count none) = 0 :=
  total_eq_zero fun _ hmem => (List.mem_replicate.mp hmem).2

end Slots
