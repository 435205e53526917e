import Mathlib

/-!
# Merging

Two sorted lists are merged record by record into a third one. Whichever head does not come behind
the other one is taken, and the rest of a list when the other one is at its end.
-/

set_option autoImplicit false

namespace Merging

variable {α : Type}

/-- What has been merged of two lists, and what is left of them. -/
structure Merged (r : α → α → Prop) (emitted left right total : List α) : Prop where
  emitted_sorted : emitted.Pairwise r
  left_sorted : left.Pairwise r
  right_sorted : right.Pairwise r
  before_left : ∀ a ∈ emitted, ∀ b ∈ left, r a b
  before_right : ∀ a ∈ emitted, ∀ b ∈ right, r a b
  perm : (emitted ++ (left ++ right)).Perm total

namespace Merged

variable {r : α → α → Prop} {emitted left right total : List α} {a b : α}

theorem start (hleft : left.Pairwise r) (hright : right.Pairwise r) :
    Merged r [] left right (left ++ right) :=
  { emitted_sorted := .nil
    left_sorted := hleft
    right_sorted := hright
    before_left := fun _ h => absurd h List.not_mem_nil
    before_right := fun _ h => absurd h List.not_mem_nil
    perm := .refl _ }

theorem symm (h : Merged r emitted left right total) : Merged r emitted right left total :=
  { emitted_sorted := h.emitted_sorted
    left_sorted := h.right_sorted
    right_sorted := h.left_sorted
    before_left := h.before_right
    before_right := h.before_left
    perm := (List.perm_append_comm.append_left emitted).trans h.perm }

/-- A head that comes before all of the other list is taken. -/
theorem takeLeft (h : Merged r emitted (a :: left) right total) (hright : ∀ b ∈ right, r a b) :
    Merged r (emitted ++ [a]) left right total := by
  obtain ⟨hleft, hsorted⟩ := List.pairwise_cons.mp h.left_sorted
  have hbefore : ∀ rest : List α, (∀ b ∈ emitted, ∀ c ∈ rest, r b c) → (∀ c ∈ rest, r a c) →
      ∀ b ∈ emitted ++ [a], ∀ c ∈ rest, r b c := by
    intro rest hemitted ha b hb c hc
    rcases List.mem_append.mp hb with hb | hb
    · exact hemitted b hb c hc
    · rw [List.mem_singleton.mp hb]
      exact ha c hc
  constructor
  case emitted_sorted =>
    refine List.pairwise_append.mpr ⟨h.emitted_sorted, List.pairwise_singleton _ _, ?_⟩
    intro b hb c hc
    rw [List.mem_singleton.mp hc]
    exact h.before_left b hb a List.mem_cons_self
  case left_sorted => exact hsorted
  case right_sorted => exact h.right_sorted
  case before_left =>
    exact hbefore left (fun b hb c hc => h.before_left b hb c (List.mem_cons_of_mem _ hc)) hleft
  case before_right => exact hbefore right h.before_right hright
  case perm =>
    rw [List.append_assoc]
    exact h.perm

theorem takeRight (h : Merged r emitted left (a :: right) total) (hleft : ∀ b ∈ left, r a b) :
    Merged r (emitted ++ [a]) left right total := (h.symm.takeLeft hleft).symm

/-- A head that comes before the other one comes before all of the other list. -/
theorem head_before [IsTrans α r] (h : Merged r emitted left (b :: right) total) (hab : r a b) :
    ∀ c ∈ b :: right, r a c := by
  intro c hc
  rcases List.mem_cons.mp hc with rfl | hc
  · exact hab
  · exact IsTrans.trans a b c hab ((List.pairwise_cons.mp h.right_sorted).1 c hc)

/-- Nothing is left: the merged list is sorted, and has the records of both. -/
theorem finish (h : Merged r emitted [] [] total) : emitted.Pairwise r ∧ emitted.Perm total :=
  ⟨h.emitted_sorted, by simpa only [List.append_nil] using h.perm⟩

end Merged

end Merging
