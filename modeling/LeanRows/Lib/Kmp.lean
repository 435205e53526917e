import Mathlib

/-!
# Matching with a failure table

`Longest pattern text n k`: of the prefixes of the pattern with at most `n` items, the one
with `k` items is the longest that ends the text. The table holds this for the prefixes of
the pattern itself, the state of the automaton for the text read so far.
-/

set_option autoImplicit false

namespace Kmp

variable {α : Type}

structure Longest (pattern text : List α) (n k : Nat) : Prop where
  le : k ≤ n
  suffix : pattern.take k <:+ text
  longest : ∀ j, j ≤ n → pattern.take j <:+ text → j ≤ k

variable [DecidableEq α] (pattern : List α) (failure : List Nat)

/-- Shorter and shorter prefixes that end the text, until one goes on with the item. -/
def fallback (item : α) : Nat → Nat → Nat
  | 0, state => state
  | fuel + 1, state =>
    if 0 < state ∧ pattern[state]? ≠ some item then
      fallback item fuel (failure.getD (state - 1) 0)
    else state

def extend (item : α) (state : Nat) : Nat :=
  let state := fallback pattern failure item state state
  if pattern[state]? = some item then state + 1 else state

/-- The entries after the first `failure.length` of them. -/
def buildFrom : List α → List Nat → List Nat
  | [], failure => failure
  | item :: items, failure =>
    buildFrom items (failure ++ [extend pattern failure item (failure.getLastD 0)])

def table : List Nat := buildFrom pattern pattern.tail [0]

/-- One item of the text: the next state, and whether the pattern ends here. -/
def advance (state : Nat) (item : α) : Nat × Bool :=
  let state := extend pattern failure item state
  if state = pattern.length then (failure.getD (state - 1) 0, true) else (state, false)

/-- The first `n` entries are right. -/
def Correct (n : Nat) : Prop :=
  n ≤ failure.length ∧ ∀ i, i < n → Longest pattern (pattern.take (i + 1)) i (failure.getD i 0)

variable {pattern failure}

omit [DecidableEq α] in
theorem Longest.nil (text : List α) : Longest pattern text 0 0 where
  le := Nat.le_refl _
  suffix := by simp
  longest j hj _ := hj

omit [DecidableEq α] in
/-- A longer end of the text has the same prefixes at its own end. -/
theorem Longest.of_suffix {text ending : List α} {n k : Nat} (h : Longest pattern ending n k)
    (hsuffix : ending <:+ text) (hn : n ≤ ending.length) : Longest pattern text n k where
  le := h.le
  suffix := h.suffix.trans hsuffix
  longest j hj htake := by
    apply h.longest j hj
    apply List.suffix_of_suffix_length_le htake hsuffix
    rw [List.length_take]
    omega

/-- The first state down the chain that goes on with `item` is the longest that does. -/
theorem fallback_spec {text : List α} {item : α} {n : Nat} (htable : Correct pattern failure n)
    (hpattern : n ≤ pattern.length) (fuel : Nat) {state : Nat} (hfuel : state ≤ fuel)
    (hstate : state ≤ n) (hsuffix : pattern.take state <:+ text)
    (hmax : ∀ j, j ≤ n → pattern.take j <:+ text → pattern[j]? = some item → j ≤ state) :
    let last := fallback pattern failure item fuel state
    last ≤ n ∧ pattern.take last <:+ text ∧ (last = 0 ∨ pattern[last]? = some item) ∧
    ∀ j, j ≤ n → pattern.take j <:+ text → pattern[j]? = some item → j ≤ last := by
  induction fuel generalizing state with
  | zero => exact ⟨hstate, hsuffix, .inl (Nat.le_zero.mp hfuel), hmax⟩
  | succ fuel ih =>
    unfold fallback
    split
    · rename_i hfall
      obtain ⟨hpos, hne⟩ := hfall
      obtain ⟨i, rfl⟩ : ∃ i, state = i + 1 := ⟨state - 1, by omega⟩
      have hentry := htable.2 i (by omega)
      have hle := hentry.le
      rw [Nat.add_sub_cancel]
      apply ih (by omega) (by omega) (hentry.suffix.trans hsuffix)
      intro j hj htake hgoes
      have hji := hmax j hj htake hgoes
      have hneq : j ≠ i + 1 := by
        rintro rfl
        exact hne hgoes
      apply hentry.longest j (by omega)
      apply List.suffix_of_suffix_length_le htake hsuffix
      rw [List.length_take, List.length_take]
      omega
    · rename_i hstop
      refine ⟨hstate, hsuffix, ?_, hmax⟩
      by_cases hzero : state = 0
      · exact .inl hzero
      · right
        by_contra hne
        exact hstop ⟨Nat.pos_of_ne_zero hzero, hne⟩

omit [DecidableEq α] in
theorem take_succ_suffix {text : List α} {item : α} {j : Nat} (hj : j < pattern.length) :
    pattern.take (j + 1) <:+ text ++ [item] ↔
      pattern.take j <:+ text ∧ pattern[j]? = some item := by
  have htake : pattern.take (j + 1) = pattern.take j ++ [pattern[j]] := by
    rw [List.take_add_one, List.getElem?_eq_getElem hj]
    rfl
  rw [htake, List.suffix_concat_iff, List.getElem?_eq_getElem hj]
  constructor
  · rintro (hnil | ⟨t, heq, hsuffix⟩)
    · exact absurd hnil (List.append_ne_nil_of_right_ne_nil _ (List.cons_ne_nil _ _))
    · obtain ⟨rfl, hitem⟩ := List.append_inj' heq rfl
      cases hitem
      exact ⟨hsuffix, rfl⟩
  · rintro ⟨hsuffix, hitem⟩
    cases hitem
    exact .inr ⟨_, rfl, hsuffix⟩

theorem extend_longest {text : List α} {n state : Nat} (item : α)
    (htable : Correct pattern failure n) (hn : n < pattern.length)
    (h : Longest pattern text n state) :
    Longest pattern (text ++ [item]) (n + 1) (extend pattern failure item state) := by
  obtain ⟨hle, hsuffix, hends, hmax⟩ := fallback_spec htable (by omega) state
    (Nat.le_refl _) h.le h.suffix (fun j hj htake _ => h.longest j hj htake)
  simp only [extend]
  generalize fallback pattern failure item state state = last at hle hsuffix hends hmax
  split
  · rename_i hgoes
    refine ⟨by omega, ?_, ?_⟩
    · exact (take_succ_suffix (by omega)).mpr ⟨hsuffix, hgoes⟩
    · intro j hj htake
      cases j with
      | zero => exact Nat.zero_le _
      | succ j =>
        obtain ⟨hprev, hitem⟩ := (take_succ_suffix (by omega)).mp htake
        exact Nat.succ_le_succ (hmax j (by omega) hprev hitem)
  · rename_i hstop
    obtain rfl : last = 0 := by
      rcases hends with hzero | hgoes
      · exact hzero
      · exact absurd hgoes hstop
    refine ⟨Nat.zero_le _, by simp, ?_⟩
    intro j hj htake
    cases j with
    | zero => exact Nat.le_refl _
    | succ j =>
      obtain ⟨hprev, hitem⟩ := (take_succ_suffix (by omega)).mp htake
      have hzero := hmax j (by omega) hprev hitem
      obtain rfl : j = 0 := by omega
      exact absurd hitem hstop

omit [DecidableEq α] in
theorem Correct.append {entries : List Nat} {entry : Nat}
    (h : Correct pattern entries entries.length)
    (hentry : Longest pattern (pattern.take (entries.length + 1)) entries.length entry) :
    Correct pattern (entries ++ [entry]) (entries ++ [entry]).length := by
  refine ⟨Nat.le_refl _, ?_⟩
  intro i hi
  rw [List.length_append, List.length_singleton] at hi
  rcases Nat.lt_succ_iff_lt_or_eq.mp hi with hlt | rfl
  · rw [List.getD_append _ _ _ _ hlt]
    exact h.2 i hlt
  · simpa using hentry

theorem buildFrom_correct (items : List α) {entries : List Nat} (hpos : 0 < entries.length)
    (hitems : pattern.drop entries.length = items)
    (h : Correct pattern entries entries.length) :
    Correct pattern (buildFrom pattern items entries) (buildFrom pattern items entries).length ∧
      (buildFrom pattern items entries).length = items.length + entries.length := by
  induction items generalizing entries with
  | nil => exact ⟨h, by simp [buildFrom]⟩
  | cons item items ih =>
    have hlen : entries.length < pattern.length := by
      by_contra hle
      rw [List.drop_eq_nil_of_le (by omega)] at hitems
      cases hitems
    have hitem : pattern[entries.length]? = some item := by
      have hhead := congrArg List.head? hitems
      rwa [List.head?_drop] at hhead
    have hlast : entries.getLastD 0 = entries.getD (entries.length - 1) 0 := by
      rw [List.getLastD_eq_getLast?, List.getLast?_eq_getElem?, List.getD_eq_getElem?_getD]
    have hprev : Longest pattern (pattern.take entries.length) (entries.length - 1)
        (entries.getLastD 0) := by
      have hentry := h.2 (entries.length - 1) (by omega)
      rwa [Nat.sub_add_cancel hpos, ← hlast] at hentry
    have htable : Correct pattern entries (entries.length - 1) :=
      ⟨by omega, fun i hi => h.2 i (by omega)⟩
    have hentry := extend_longest item htable (by omega) hprev
    have htake : pattern.take entries.length ++ [item] = pattern.take (entries.length + 1) := by
      rw [List.take_add_one, hitem]
      rfl
    rw [htake, Nat.sub_add_cancel hpos] at hentry
    have htail : pattern.drop (entries ++ [extend pattern entries item
        (entries.getLastD 0)]).length = items := by
      rw [List.length_append, List.length_singleton, ← List.drop_drop, hitems]
      rfl
    obtain ⟨hcorrect, hlength⟩ := ih (by simp) htail (h.append hentry)
    refine ⟨hcorrect, ?_⟩
    rw [buildFrom, hlength, List.length_append, List.length_singleton, List.length_cons]
    omega

/-- The table of a pattern is right throughout. -/
theorem table_correct (hne : pattern ≠ []) :
    (table pattern).length = pattern.length ∧
      Correct pattern (table pattern) pattern.length := by
  have hpos := List.length_pos_iff.mpr hne
  have hfirst : Correct pattern [0] [0].length := by
    refine ⟨Nat.le_refl _, ?_⟩
    intro i hi
    obtain rfl : i = 0 := by simpa using hi
    exact .nil _
  have htail : pattern.drop [0].length = pattern.tail := List.drop_one
  obtain ⟨hcorrect, hlength⟩ := buildFrom_correct pattern.tail (by simp) htail hfirst
  have hlen : (table pattern).length = pattern.length := by
    rw [table, hlength, List.length_tail, List.length_singleton]
    omega
  refine ⟨hlen, ?_⟩
  rw [table] at hlen ⊢
  rwa [hlen] at hcorrect

/-- Reading an item keeps the state right, and tells whether the pattern ends there. -/
theorem advance_spec {text : List α} {state : Nat} (item : α) (hne : pattern ≠ [])
    (htable : Correct pattern failure pattern.length)
    (h : Longest pattern text (pattern.length - 1) state) :
    Longest pattern (text ++ [item]) (pattern.length - 1)
      (advance pattern failure state item).1 ∧
    ((advance pattern failure state item).2 = true ↔ pattern <:+ text ++ [item]) := by
  have hpos := List.length_pos_iff.mpr hne
  have hnext := extend_longest item
    ⟨by have := htable.1; omega, fun i hi => htable.2 i (by omega)⟩ (by omega) h
  rw [Nat.sub_add_cancel hpos] at hnext
  simp only [advance]
  generalize extend pattern failure item state = next at hnext
  split
  · rename_i hfull
    have hends : pattern <:+ text ++ [item] := by
      have hsuffix := hnext.suffix
      rwa [hfull, List.take_length] at hsuffix
    refine ⟨?_, by simp [hends]⟩
    have hentry := htable.2 (pattern.length - 1) (by omega)
    rw [Nat.sub_add_cancel hpos, List.take_length] at hentry
    rw [hfull]
    exact hentry.of_suffix hends (by omega)
  · rename_i hpartial
    have hle := hnext.le
    refine ⟨⟨by omega, hnext.suffix, fun j hj => hnext.longest j (by omega)⟩, ?_⟩
    simp only [Bool.false_eq_true, false_iff]
    intro hends
    have hlast := hnext.longest pattern.length (Nat.le_refl _) (by rwa [List.take_length])
    omega

end Kmp
