import Mathlib

/-!
# Thinned marks

Marks are set along a count, a stride apart. When there is no room left every second mark goes
and the stride is doubled, so the marks stay dense although their number is bounded.
-/

set_option autoImplicit false

namespace Thinning

variable {α : Type}

/-- Every second item, from the second one on. -/
def half : List α → List α
  | [] => []
  | [_] => []
  | _ :: b :: rest => b :: half rest

structure Marks where
  marks : List Nat
  stride : Nat
  next : Nat

namespace Marks

def start (initial : Nat) : Marks := ⟨[], initial, initial⟩

def add (capacity n : Nat) (m : Marks) : Marks :=
  let full := decide (m.marks.length = capacity)
  let stride := if full then m.stride * 2 else m.stride
  ⟨(if full then half m.marks else m.marks) ++ [n], stride, n + stride⟩

/-- The count comes to `n`. -/
def visit (capacity n : Nat) (m : Marks) : Marks := if m.next ≤ n then m.add capacity n else m

/-- The last mark, or where the count starts. -/
def last (origin : Nat) (m : Marks) : Nat := m.marks.getLastD origin

/-- The last mark that is not behind `n`, or where the count starts. -/
def before (origin n : Nat) (marks : List Nat) : Nat :=
  (marks.reverse.find? fun mark => decide (mark ≤ n)).getD origin

end Marks

/-- The second item comes behind the first, at most `stride` further on. -/
def Close (stride a b : Nat) : Prop := a < b ∧ b ≤ a + stride

/-- The marks when the count has come from `origin` to `n`. Their number says how far the last
one stands from the first. -/
structure Dense (capacity initial origin n : Nat) (m : Marks) : Prop where
  length_le : m.marks.length ≤ capacity
  close : List.IsChain (Close m.stride) (origin :: m.marks)
  le_last : origin + (m.marks.length - 1) * m.stride ≤ m.last origin
  next_le : m.next ≤ m.last origin + m.stride
  next_eq : m.marks ≠ [] → m.next = m.last origin + m.stride
  last_le : m.last origin ≤ n
  lt_next : n < m.next
  doubled : m.stride = initial ∨ capacity < 2 * m.marks.length

/-! ### Half of a list -/

theorem length_half (xs : List α) : (half xs).length = xs.length / 2 := by
  match xs with
  | [] => simp [half]
  | [_] => simp [half]
  | _ :: _ :: rest =>
    rw [half, List.length_cons, length_half rest, List.length_cons, List.length_cons]
    omega

theorem getLastD_half {xs : List α} (h : xs.length % 2 = 0) (a : α) :
    (half xs).getLastD a = xs.getLastD a := by
  match xs with
  | [] => rfl
  | [_] => exact absurd h (by simp)
  | _ :: b :: rest =>
    have hrest : rest.length % 2 = 0 := by
      rw [List.length_cons, List.length_cons] at h
      omega
    rw [half, List.getLastD_cons, List.getLastD_cons, List.getLastD_cons]
    exact getLastD_half hrest b

/-- Two steps in one are at most twice as long. -/
theorem close_half {stride a : Nat} {xs : List Nat} (h : List.IsChain (Close stride) (a :: xs)) :
    List.IsChain (Close (stride * 2)) (a :: half xs) := by
  match xs with
  | [] => exact .singleton a
  | [_] => exact .singleton a
  | b :: c :: rest =>
    obtain ⟨⟨hab, hab'⟩, ⟨hbc, hbc'⟩, hrest⟩ : Close stride a b ∧ Close stride b c ∧
        List.IsChain (Close stride) (c :: rest) := by simpa using h
    exact .cons_cons ⟨hab.trans hbc, by omega⟩ (close_half hrest)

theorem close_append {stride a n : Nat} {xs : List Nat}
    (h : List.IsChain (Close stride) (a :: xs)) (hn : Close stride (xs.getLastD a) n) :
    List.IsChain (Close stride) (a :: (xs ++ [n])) := by
  induction xs generalizing a with
  | nil => exact .cons_cons hn (.singleton n)
  | cons b rest ih =>
    obtain ⟨hab, hrest⟩ : Close stride a b ∧ List.IsChain (Close stride) (b :: rest) := by
      simpa using h
    exact .cons_cons hab (ih hrest (by rwa [List.getLastD_cons] at hn))

/-! ### Steps -/

variable {capacity initial origin n : Nat} {m : Marks}

/-- The count starts with its first item, wherever that is. -/
theorem dense_first (hcapacity : 0 < capacity) (hinitial : 0 < initial) :
    Dense capacity initial origin (origin + 1)
      ((Marks.start initial).visit capacity (origin + 1)) := by
  by_cases hreached : initial ≤ origin + 1
  · have hadd : (Marks.start initial).visit capacity (origin + 1) =
        ⟨[origin + 1], initial, origin + 1 + initial⟩ := by
      simp [Marks.visit, Marks.start, Marks.add, hreached, hcapacity.ne]
    have hstep : Close initial origin (origin + 1) := ⟨by omega, by omega⟩
    rw [hadd]
    refine ⟨hcapacity, .cons_cons hstep (.singleton _), ?_, Nat.le_refl _, fun _ => rfl,
      Nat.le_refl _, Nat.lt_add_of_pos_right hinitial, .inl rfl⟩
    simp [Marks.last]
  · rw [Marks.visit, if_neg (by simpa [Marks.start] using hreached)]
    exact ⟨Nat.zero_le _, .singleton origin, by simp [Marks.start, Marks.last],
      Nat.le_add_left _ _, fun h => absurd rfl h, Nat.le_succ origin, Nat.lt_of_not_le hreached,
      .inl rfl⟩

/-- The count goes on by one. -/
theorem Dense.visit (h : Dense capacity initial origin n m) (room : Nat)
    (hcapacity : capacity = 2 * room) (hroom : 0 < room) :
    Dense capacity initial origin (n + 1) (m.visit capacity (n + 1)) := by
  have hlt := h.lt_next
  have hle := h.last_le
  have hlength := h.length_le
  have hat := h.le_last
  by_cases hreached : m.next ≤ n + 1
  · have hnext : n + 1 = m.next := by omega
    have hnear := h.next_le
    rw [Marks.visit, if_pos hreached]
    by_cases hfull : m.marks.length = capacity
    · -- every second mark goes: the last one is kept, and the steps are twice as long
      have hne : m.marks ≠ [] := List.ne_nil_of_length_pos (by omega)
      have hstride : m.add capacity (n + 1) =
          ⟨half m.marks ++ [n + 1], m.stride * 2, n + 1 + m.stride * 2⟩ := by
        simp [Marks.add, hfull]
      have hend : (m.add capacity (n + 1)).last origin = n + 1 := by simp [hstride, Marks.last]
      have hhalf : (half m.marks).length = room := by rw [length_half]; omega
      have hkept : (half m.marks).getLastD origin = m.last origin := getLastD_half (by omega) origin
      have hstep : Close (m.stride * 2) ((half m.marks).getLastD origin) (n + 1) := by
        rw [hkept]
        exact ⟨by omega, by omega⟩
      have hfar : origin + room * (m.stride * 2) ≤ n + 1 := by
        rw [hfull, hcapacity] at hat
        obtain ⟨room, rfl⟩ := Nat.exists_eq_add_of_le' hroom
        calc origin + (room + 1) * (m.stride * 2)
            = origin + (2 * (room + 1) - 1) * m.stride + m.stride := by
              rw [show 2 * (room + 1) - 1 = 2 * room + 1 by omega]
              ring
          _ ≤ m.last origin + m.stride := Nat.add_le_add_right hat _
          _ = n + 1 := by rw [hnext, h.next_eq hne]
      rw [hstride] at hend ⊢
      have hclose := close_append (close_half h.close) hstep
      refine ⟨?_, hclose, ?_, ?_, fun _ => ?_, hend.le, ?_, .inr ?_⟩
      · rw [List.length_append, hhalf, List.length_singleton]
        omega
      · rw [hend, List.length_append, hhalf, List.length_singleton, Nat.add_sub_cancel]
        exact hfar
      · rw [hend]
      · rw [hend]
      · exact Nat.lt_add_of_pos_right (by omega)
      · rw [List.length_append, hhalf, List.length_singleton]
        omega
    · have hstride : m.add capacity (n + 1) = ⟨m.marks ++ [n + 1], m.stride, n + 1 + m.stride⟩ := by
        simp [Marks.add, hfull]
      have hend : (m.add capacity (n + 1)).last origin = n + 1 := by simp [hstride, Marks.last]
      have hstep : Close m.stride (m.marks.getLastD origin) (n + 1) := by
        change Close m.stride (m.last origin) (n + 1)
        exact ⟨by omega, by omega⟩
      have hfar : origin + m.marks.length * m.stride ≤ n + 1 := by
        by_cases hne : m.marks = []
        · have hstart : m.last origin = origin := by rw [Marks.last, hne, List.getLastD_nil]
          rw [hne, List.length_nil, Nat.zero_mul]
          omega
        · have hpos := List.length_pos_of_ne_nil hne
          obtain ⟨count, hcount⟩ := Nat.exists_eq_add_of_le' hpos
          rw [hcount, Nat.add_sub_cancel] at hat
          rw [hcount, hnext, h.next_eq hne, Nat.add_mul, Nat.one_mul, ← Nat.add_assoc]
          exact Nat.add_le_add_right hat _
      rw [hstride] at hend ⊢
      refine ⟨?_, close_append h.close hstep, ?_, ?_, fun _ => ?_, hend.le, ?_, ?_⟩
      · rw [List.length_append, List.length_singleton]
        omega
      · rw [hend, List.length_append, List.length_singleton, Nat.add_sub_cancel]
        exact hfar
      · rw [hend]
      · rw [hend]
      · exact Nat.lt_add_of_pos_right (by omega)
      · rw [List.length_append, List.length_singleton]
        exact h.doubled.imp_right fun hmore => by omega
  · rw [Marks.visit, if_neg hreached]
    exact ⟨hlength, h.close, hat, h.next_le, h.next_eq, by omega, by omega, h.doubled⟩

/-! ### What the marks are good for -/

theorem Dense.sorted (h : Dense capacity initial origin n m) :
    (origin :: m.marks).Pairwise (· < ·) :=
  List.isChain_iff_pairwise.mp (h.close.imp fun _ _ hclose => hclose.1)

/-- No gap is longer than the stride, not even that behind the last mark. -/
theorem Dense.gap_le (h : Dense capacity initial origin n m) :
    List.IsChain (fun a b => b ≤ a + m.stride) (origin :: (m.marks ++ [n])) := by
  have hgaps : List.IsChain (fun a b => b ≤ a + m.stride) (origin :: m.marks) :=
    h.close.imp fun _ _ hclose => hclose.2
  refine List.isChain_append.mpr ⟨hgaps, .singleton n, fun a ha b hb => ?_⟩
  have hlast : a = m.last origin := by
    rw [List.getLast?_cons, Option.mem_some_iff] at ha
    rw [← ha, Marks.last, List.getLastD_eq_getLast?]
  have hn : n = b := by simpa using hb
  have hlt := h.lt_next
  have hle := h.next_le
  omega

/-- The stride is the first one, or the marks already cover half as many strides. -/
theorem Dense.stride_le (h : Dense capacity initial origin n m) (room : Nat)
    (hcapacity : capacity = 2 * room) :
    m.stride = initial ∨ capacity * m.stride ≤ 2 * (n - origin) := by
  refine h.doubled.imp_right fun hmore => ?_
  have hlast := h.le_last
  have hle := h.last_le
  have hroom : room * m.stride ≤ (m.marks.length - 1) * m.stride :=
    Nat.mul_le_mul_right _ (by omega)
  rw [hcapacity, Nat.mul_assoc]
  omega

/-- Behind the last mark before `k` there is another one within a stride behind `k`, or none. -/
theorem before_close {stride k : Nat} {marks : List Nat}
    (h : List.IsChain (Close stride) (origin :: marks)) :
    k < Marks.before origin k marks + stride ∨
      Marks.before origin k marks = marks.getLastD origin := by
  induction marks using List.reverseRecOn with
  | nil => exact .inr rfl
  | append_singleton marks mark ih =>
    have hchain : List.IsChain (Close stride) ((origin :: marks) ++ [mark]) := h
    obtain ⟨hmarks, -, hlast⟩ := List.isChain_append.mp hchain
    have hbefore : Marks.before origin k (marks ++ [mark]) =
        if mark ≤ k then mark else Marks.before origin k marks := by
      rw [Marks.before, List.reverse_append, List.reverse_singleton, List.singleton_append,
        List.find?_cons]
      by_cases hle : mark ≤ k
      · simp [hle]
      · simp [hle, Marks.before]
    rw [hbefore]
    by_cases hle : mark ≤ k
    · rw [if_pos hle]
      exact .inr (by simp)
    · rw [if_neg hle]
      rcases ih hmarks with hnear | hend
      · exact .inl hnear
      · have hstep := hlast (marks.getLastD origin) (by simp [List.getLast?_cons]) mark rfl
        have hfar := hstep.2
        exact .inl (by omega)

/-- From a mark less than a stride before it any place up to the count is reached. -/
theorem Dense.before_close (h : Dense capacity initial origin n m) (k : Nat) :
    min k n < Marks.before origin k m.marks + m.stride := by
  rcases Thinning.before_close (k := k) h.close with hnear | hend
  · omega
  · have hlast : m.last origin = m.marks.getLastD origin := rfl
    have hlt := h.lt_next
    have hle := h.next_le
    omega

end Thinning
