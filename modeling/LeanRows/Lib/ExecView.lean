import LeanRows.Lib.Exec

/-!
# Actions seen through a function of the state

Two actions on one world do the same, and the state of the one is a function of that of the
other, as long as an invariant holds. What is left out of the view never decides anything.
-/

set_option autoImplicit false

namespace Exec

variable {S S' W ε α β : Type}

/-- Seen through `see`, the action `x` is `x'`, and it keeps the invariant. -/
def Viewed (I : S → Prop) (see : S → S') (x : Exec (S × W) ε α) (x' : Exec (S' × W) ε α) : Prop :=
  ∀ s w, I s → x' (see s, w) = ((x (s, w)).1, see (x (s, w)).2.1, (x (s, w)).2.2) ∧
    I (x (s, w)).2.1

namespace Viewed

variable {I : S → Prop} {see : S → S'} {x : Exec (S × W) ε α} {x' : Exec (S' × W) ε α}
  {f : α → Exec (S × W) ε β} {f' : α → Exec (S' × W) ε β}

theorem pure (a : α) : Viewed I see (Pure.pure a : Exec (S × W) ε α) (Pure.pure a) :=
  fun _ _ h => ⟨rfl, h⟩

theorem throw (e : ε) : Viewed I see (Exec.throw e : Exec (S × W) ε α) (Exec.throw e) :=
  fun _ _ h => ⟨rfl, h⟩

theorem bind (hx : Viewed I see x x') (hf : ∀ a, Viewed I see (f a) (f' a)) :
    Viewed I see (x >>= f) (x' >>= f') := by
  intro s w h
  obtain ⟨hrun, hkeep⟩ := hx s w h
  rcases hr : x (s, w) with ⟨e | a, t, v⟩
  · rw [hr] at hrun hkeep
    rw [run_bind_error hr, run_bind_error hrun]
    exact ⟨rfl, hkeep⟩
  · rw [hr] at hrun hkeep
    rw [run_bind_ok hr, run_bind_ok hrun]
    exact hf a t v hkeep

/-- What is read of the state is seen on the other side. -/
theorem get_bind {g : S → Exec (S × W) ε β} {g' : S' → Exec (S' × W) ε β}
    (h : ∀ s, I s → Viewed I see (g s) (g' (see s))) :
    Viewed I see (Exec.get >>= g) (Exec.get >>= g') :=
  fun s w hs => h s hs s w hs

theorem modify {g : S → S} {g' : S' → S'} (h : ∀ s, I s → g' (see s) = see (g s) ∧ I (g s)) :
    Viewed I see (Exec.modify g : Exec (S × W) ε Unit) (Exec.modify g') :=
  fun s _ hs => ⟨by rw [run_modify, (h s hs).1, run_modify], (h s hs).2⟩

theorem ite {c : Prop} [Decidable c] {y : Exec (S × W) ε α} {y' : Exec (S' × W) ε α}
    (hx : c → Viewed I see x x') (hy : ¬ c → Viewed I see y y') :
    Viewed I see (if c then x else y) (if c then x' else y') := by
  by_cases hc : c
  · rw [if_pos hc, if_pos hc]
    exact hx hc
  · rw [if_neg hc, if_neg hc]
    exact hy hc

end Viewed

end Exec
