import Mathlib

/-!
# Winner trees

A tree of matches in one row of nodes: node 1 is the root, the children of `n` are `2 * n` and
`2 * n + 1`, and the leaves are the nodes from `leaves` on. A node holds the entry whose head is
least below it. After the head of one entry has changed, the matches on its way to the root are
played again.
-/

set_option autoImplicit false

namespace WinnerTree

/-! ## Above a node -/

/-- `m` is `n` or on its way to the root. -/
def Above (m n : Nat) : Prop := ∃ k, n / 2 ^ k = m

theorem Above.self (n : Nat) : Above n n := ⟨0, by simp⟩

variable {a b m n : Nat}

theorem Above.le (h : Above m n) : m ≤ n := by
  obtain ⟨k, rfl⟩ := h
  exact Nat.div_le_self _ _

theorem Above.trans (h : Above m n) (h' : Above n a) : Above m a := by
  obtain ⟨k, rfl⟩ := h
  obtain ⟨j, rfl⟩ := h'
  exact ⟨j + k, by rw [Nat.div_div_eq_div_mul, ← Nat.pow_add]⟩

theorem above_half (n : Nat) : Above (n / 2) n := ⟨1, by rw [Nat.pow_one]⟩

theorem above_left (m : Nat) : Above m (2 * m) := ⟨1, by omega⟩

theorem above_right (m : Nat) : Above m (2 * m + 1) := ⟨1, by omega⟩

/-- All nodes are below the root. -/
theorem above_root (hpos : 0 < n) : Above 1 n := by
  induction n using Nat.strong_induction_on with
  | h n ih =>
    rcases Nat.lt_or_ge 1 n with hmore | hone
    · exact (ih (n / 2) (by omega) (by omega)).trans (above_half n)
    · obtain rfl : n = 1 := by omega
      exact .self 1

/-- What is below a node is the node or below one of its children. -/
theorem Above.child (h : Above m n) (hne : n ≠ m) : Above (2 * m) n ∨ Above (2 * m + 1) n := by
  obtain ⟨k, hk⟩ := h
  cases k with
  | zero => exact absurd (by simpa using hk) hne
  | succ k =>
    rw [Nat.pow_succ, ← Nat.div_div_eq_div_mul] at hk
    obtain heven | hodd : n / 2 ^ k = 2 * m ∨ n / 2 ^ k = 2 * m + 1 := by omega
    · exact .inl ⟨k, heven⟩
    · exact .inr ⟨k, hodd⟩

/-- Of two nodes above a third, the smaller is above the other. -/
theorem Above.of_le (ha : Above a n) (hb : Above b n) (hle : a ≤ b) : Above a b := by
  obtain ⟨i, rfl⟩ := ha
  obtain ⟨j, rfl⟩ := hb
  rcases Nat.le_total j i with hij | hij
  · exact ⟨i - j, by rw [Nat.div_div_eq_div_mul, ← Nat.pow_add, Nat.add_sub_cancel' hij]⟩
  · have hbelow : n / 2 ^ j ≤ n / 2 ^ i := Nat.div_le_div_left
      (Nat.pow_le_pow_right (by decide) hij) (Nat.two_pow_pos i)
    rw [Nat.le_antisymm hle hbelow]
    exact .self _

theorem Above.not_siblings (hm : 0 < m) (hleft : Above (2 * m) n) : ¬ Above (2 * m + 1) n := by
  intro hright
  obtain ⟨k, hk⟩ := hleft.of_le hright (by omega)
  cases k with
  | zero => rw [Nat.pow_zero, Nat.div_one] at hk; omega
  | succ k =>
    rw [Nat.pow_succ', ← Nat.div_div_eq_div_mul] at hk
    have hle := Nat.div_le_self ((2 * m + 1) / 2) (2 ^ k)
    omega

theorem Above.leaf {leaves : Nat} {r r' : Nat} (hr' : r' < leaves)
    (h : Above (leaves + r) (leaves + r')) : r = r' := by
  obtain ⟨k, hk⟩ := h
  cases k with
  | zero => rw [Nat.pow_zero, Nat.div_one] at hk; omega
  | succ k =>
    rw [Nat.pow_succ', ← Nat.div_div_eq_div_mul] at hk
    have hle := Nat.div_le_self ((leaves + r') / 2) (2 ^ k)
    omega

/-! ## Matches -/

variable {α : Type} (order : α → α → Ordering) (heads : Nat → Option α)

/-- The winner of two entries; one without a head is in no node. -/
def play (left right : Option Nat) : Option Nat :=
  match left, right with
  | none, right => right
  | some left, none => some left
  | some left, some right =>
    match heads left, heads right with
    | some a, some b => if order a b = .gt then some right else some left
    | _, _ => none

variable (leaves : Nat) (nodes : Nat → Option Nat)

/-- The node holds the entry with the least head below it, or none has a head. -/
structure Least (m : Nat) : Prop where
  none_iff : nodes m = none ↔ ∀ r < leaves, Above m (leaves + r) → heads r = none
  some_least : ∀ r, nodes m = some r → r < leaves ∧ Above m (leaves + r) ∧
    ∃ a, heads r = some a ∧ ∀ r' < leaves, Above m (leaves + r') → ∀ b, heads r' = some b →
      r' = r ∨ order a b = .lt

/-- The entries in the leaves are those with a head. -/
def Leaves : Prop := ∀ r < leaves, nodes (leaves + r) = (heads r).map fun _ => r

/-- Entries are held above their leaves only. -/
def Scoped : Prop := ∀ m r, nodes m = some r → r < leaves ∧ Above m (leaves + r)

def Consistent (m : Nat) : Prop :=
  nodes m = play order heads (nodes (2 * m)) (nodes (2 * m + 1))

/-- No two entries have heads that tie. -/
def Distinct : Prop := ∀ r < leaves, ∀ r' < leaves, r ≠ r' → ∀ a b, heads r = some a →
  heads r' = some b → order a b ≠ .eq

variable {order heads leaves nodes}

theorem least_leaf (hleaves : Leaves heads leaves nodes) {r : Nat} (hr : r < leaves) :
    Least order heads leaves nodes (leaves + r) where
  none_iff := by
    rw [hleaves r hr, Option.map_eq_none_iff]
    constructor
    · intro hnone r' hr' habove
      rwa [← habove.leaf hr']
    · intro hall
      exact hall r hr (.self _)
  some_least winner hwinner := by
    rw [hleaves r hr, Option.map_eq_some_iff] at hwinner
    obtain ⟨a, ha, rfl⟩ := hwinner
    refine ⟨hr, .self _, a, ha, fun r' hr' habove b _ => .inl ?_⟩
    exact (habove.leaf hr').symm

theorem play_none_right (left : Option Nat) : play order heads left none = left := by
  cases left <;> rfl

theorem play_some {left right : Nat} {x y : α} (hx : heads left = some x)
    (hy : heads right = some y) : play order heads (some left) (some right) =
      if order x y = .gt then some right else some left := by
  simp only [play, hx, hy]

/-- What holds below a node holds below both of its children. -/
theorem forall_above {P : Nat → Prop} (hm : m < leaves) :
    (∀ r < leaves, Above m (leaves + r) → P r) ↔
      (∀ r < leaves, Above (2 * m) (leaves + r) → P r) ∧
        ∀ r < leaves, Above (2 * m + 1) (leaves + r) → P r := by
  constructor
  · intro h
    exact ⟨fun r hr habove => h r hr ((above_left m).trans habove),
      fun r hr habove => h r hr ((above_right m).trans habove)⟩
  · rintro ⟨hleft, hright⟩ r hr habove
    obtain h | h := habove.child (by omega)
    · exact hleft r hr h
    · exact hright r hr h

/-- A match between two nodes that hold what is least below them. -/
theorem Least.of_children [Std.TransCmp order] (hpos : 0 < m) (hm : m < leaves)
    (hdistinct : Distinct order heads leaves)
    (hleft : Least order heads leaves nodes (2 * m))
    (hright : Least order heads leaves nodes (2 * m + 1))
    (hplay : Consistent order heads nodes m) : Least order heads leaves nodes m := by
  have hnone := forall_above (P := fun r => heads r = none) hm
  rw [← hleft.none_iff, ← hright.none_iff] at hnone
  unfold Consistent at hplay
  cases hl : nodes (2 * m) with
  | none =>
    rw [hl, play] at hplay
    have hempty := hleft.none_iff.mp hl
    refine ⟨by rw [hnone, hplay, hl, and_iff_right rfl], fun r hr => ?_⟩
    obtain ⟨hlt, habove, a, ha, hleast⟩ := hright.some_least r (hplay ▸ hr)
    refine ⟨hlt, (above_right m).trans habove, a, ha, (forall_above hm).mpr ⟨?_, hleast⟩⟩
    intro r' hr' habove' b hb
    rw [hempty r' hr' habove'] at hb
    cases hb
  | some left =>
    obtain ⟨hlt, habove, a, ha, hleast⟩ := hleft.some_least left hl
    cases hr : nodes (2 * m + 1) with
    | none =>
      rw [hl, hr, play_none_right] at hplay
      have hempty := hright.none_iff.mp hr
      refine ⟨by rw [hnone, hplay, hl]; simp, fun r hwin => ?_⟩
      rw [hplay, Option.some_inj] at hwin
      subst hwin
      refine ⟨hlt, (above_left m).trans habove, a, ha, (forall_above hm).mpr ⟨hleast, ?_⟩⟩
      intro r' hr' habove' b hb
      rw [hempty r' hr' habove'] at hb
      cases hb
    | some right =>
      obtain ⟨hlt', habove', b, hb, hleast'⟩ := hright.some_least right hr
      have hne : left ≠ right := fun heq =>
        Above.not_siblings hpos habove (heq ▸ habove')
      have hnotEq := hdistinct left hlt right hlt' hne a b ha hb
      rw [hl, hr, play_some ha hb] at hplay
      refine ⟨by rw [hnone, hplay, hl]; split_ifs <;> simp, fun r hwin => ?_⟩
      by_cases hgt : order a b = .gt
      · rw [hplay, if_pos hgt, Option.some_inj] at hwin
        subst hwin
        have hba : order b a = .lt := Std.OrientedCmp.gt_iff_lt.mp hgt
        refine ⟨hlt', (above_right m).trans habove', b, hb, (forall_above hm).mpr ⟨?_, hleast'⟩⟩
        intro r' hr' hin c hc
        obtain rfl | hless := hleast r' hr' hin c hc
        · rw [ha, Option.some_inj] at hc
          exact .inr (hc ▸ hba)
        · exact .inr (Std.TransCmp.lt_trans hba hless)
      · have hab : order a b = .lt := by
          cases horder : order a b with
          | lt => rfl
          | eq => exact absurd horder hnotEq
          | gt => exact absurd horder hgt
        rw [hplay, if_neg hgt, Option.some_inj] at hwin
        subst hwin
        refine ⟨hlt, (above_left m).trans habove, a, ha, (forall_above hm).mpr ⟨hleast, ?_⟩⟩
        intro r' hr' hin c hc
        obtain rfl | hless := hleast' r' hr' hin c hc
        · rw [hb, Option.some_inj] at hc
          exact .inr (hc ▸ hab)
        · exact .inr (Std.TransCmp.lt_trans hab hless)

/-- A node below which all matches are played holds what is least below it. -/
theorem least_of_consistent [Std.TransCmp order] (hdistinct : Distinct order heads leaves)
    (hleaves : Leaves heads leaves nodes) (hpos : 0 < m) (hm : m < 2 * leaves)
    (hplayed : ∀ n < leaves, Above m n → Consistent order heads nodes n) :
    Least order heads leaves nodes m := by
  induction hsize : 2 * leaves - m using Nat.strong_induction_on generalizing m with
  | h size ih =>
    rcases Nat.lt_or_ge m leaves with hinner | hleaf
    · have hchild : ∀ c, 2 * m ≤ c → c ≤ 2 * m + 1 → Above m c →
          Least order heads leaves nodes c := fun c hlow hhigh habove =>
        ih (2 * leaves - c) (by omega) (by omega) (by omega)
          (fun n hn hbelow => hplayed n hn (habove.trans hbelow)) rfl
      exact (hchild (2 * m) (Nat.le_refl _) (by omega) (above_left m)).of_children hpos hinner
        hdistinct (hchild (2 * m + 1) (by omega) (Nat.le_refl _) (above_right m))
        (hplayed m hinner (.self m))
    · have heq : leaves + (m - leaves) = m := by omega
      rw [← heq]
      exact least_leaf hleaves (by omega)

/-! ## Playing again -/

/-- A match is as it was unless an entry that played in it has another head. -/
theorem Consistent.of_heads {heads' : Nat → Option α} {nodes' : Nat → Option Nat}
    (h : Consistent order heads nodes m) (hself : nodes' m = nodes m)
    (hleft : nodes' (2 * m) = nodes (2 * m)) (hright : nodes' (2 * m + 1) = nodes (2 * m + 1))
    (hheads : ∀ c, (c = 2 * m ∨ c = 2 * m + 1) → ∀ r, nodes c = some r → heads' r = heads r) :
    Consistent order heads' nodes' m := by
  unfold Consistent at h ⊢
  rw [hself, hleft, hright, h]
  cases hl : nodes (2 * m) with
  | none => rfl
  | some left =>
    have hleftHead := hheads (2 * m) (.inl rfl) left hl
    cases hr : nodes (2 * m + 1) with
    | none => rfl
    | some right =>
      have hrightHead := hheads (2 * m + 1) (.inr rfl) right hr
      simp only [play, hleftHead, hrightHead]

/-- The matches that do not depend on a leaf stay played when its head changes. -/
theorem consistent_change (hscoped : Scoped leaves nodes) {heads' : Nat → Option α}
    {nodes' : Nat → Option Nat} {index : Nat} (hm : m < leaves)
    (hheads : ∀ r, r ≠ index → heads' r = heads r)
    (hnodes : ∀ n, n ≠ leaves + index → nodes' n = nodes n)
    (hapart : ¬ Above m (leaves + index)) (h : Consistent order heads nodes m) :
    Consistent order heads' nodes' m := by
  have hchild : ∀ c, (c = 2 * m ∨ c = 2 * m + 1) → Above m c := by
    rintro c (rfl | rfl)
    · exact above_left m
    · exact above_right m
  have hne : ∀ c, (c = 2 * m ∨ c = 2 * m + 1) → c ≠ leaves + index := by
    rintro c hc rfl
    exact hapart (hchild _ hc)
  refine h.of_heads (hnodes m (by omega)) (hnodes _ (hne _ (.inl rfl)))
    (hnodes _ (hne _ (.inr rfl))) fun c hc r hr => hheads r ?_
  rintro rfl
  exact hapart ((hchild c hc).trans (hscoped c r hr).2)

/-- Once the match at a node is played, only those above it are left. -/
theorem consistent_played {node : Nat}
    (h : ∀ m < leaves, 0 < m → ¬ Above m node → Consistent order heads nodes m)
    (hnode : 0 < node) {winner : Option Nat}
    (hwinner : winner = play order heads (nodes (2 * node)) (nodes (2 * node + 1))) :
    ∀ m < leaves, 0 < m → ¬ Above m (node / 2) →
      Consistent order heads (Function.update nodes node winner) m := by
  intro m hm hpos hapart
  by_cases hself : m = node
  · subst hself
    unfold Consistent
    rw [Function.update_self, Function.update_of_ne (by omega), Function.update_of_ne (by omega)]
    exact hwinner
  · have hnotAbove : ¬ Above m node := by
      rintro ⟨k, hk⟩
      cases k with
      | zero => exact hself (by simpa using hk.symm)
      | succ k =>
        rw [Nat.pow_succ', ← Nat.div_div_eq_div_mul] at hk
        exact hapart ⟨k, hk⟩
    have hparent : node / 2 ≠ m := by
      rintro rfl
      exact hapart (.self _)
    refine (h m hm hpos hnotAbove).of_heads (Function.update_of_ne hself _ _)
      (Function.update_of_ne (by omega) _ _) (Function.update_of_ne (by omega) _ _)
      fun _ _ _ _ => rfl

theorem Scoped.update (hscoped : Scoped leaves nodes) {node : Nat} {winner : Option Nat}
    (hwinner : ∀ r, winner = some r → r < leaves ∧ Above node (leaves + r)) :
    Scoped leaves (Function.update nodes node winner) := by
  intro m r hr
  by_cases hself : m = node
  · subst hself
    rw [Function.update_self] at hr
    exact hwinner r hr
  · rw [Function.update_of_ne hself] at hr
    exact hscoped m r hr

/-- A winner comes from one of the two nodes. -/
theorem play_mem {left right : Option Nat} {r : Nat} (h : play order heads left right = some r) :
    left = some r ∨ right = some r := by
  cases left with
  | none => exact .inr h
  | some left =>
    cases right with
    | none => exact .inl h
    | some right =>
      simp only [play] at h
      split at h
      · split_ifs at h
        · exact .inr h
        · exact .inl h
      · cases h

end WinnerTree
