import LeanRows.Sort.Describe

/-!
# The order of keys

The order is stated on whole keys: numbers by value, texts byte by byte, both in the
requested direction, blank keys last, and equal keys by row. What two descriptors decide
agrees with it, and so does the comparison of all bytes where they decide nothing.
-/

namespace LeanRows.Sort

set_option autoImplicit false

open Number (leadingZeros)

/-! ## The reference order -/

inductive KeyClass where
  | number (value : ℚ)
  | text (bytes : List Byte)
  | blank
deriving DecidableEq

namespace KeyClass

def group : KeyClass → Nat
  | number _ => 0
  | text _ => 1
  | blank => 2

def value : KeyClass → ℚ
  | number value => value
  | _ => 0

def bytes : KeyClass → List Byte
  | text bytes => bytes
  | _ => []

end KeyClass

/-- A key with the row it is sorted by when it ties. -/
structure SortKey where
  cls : KeyClass
  row : Nat
deriving DecidableEq

def directed (direction : SortDirection) (order : Ordering) : Ordering :=
  if direction = .descending then order.swap else order

def directedCmp {α : Type} (direction : SortDirection) (cmp : α → α → Ordering) (a b : α) :
    Ordering := directed direction (cmp a b)

def SortKey.order (direction : SortDirection) : SortKey → SortKey → Ordering :=
  compareLex (compareOn fun k => k.cls.group)
    (compareLex (directedCmp direction (compareOn fun k => k.cls.value))
      (compareLex (directedCmp direction (compareOn fun k => k.cls.bytes)) (compareOn SortKey.row)))

instance {α : Type} (direction : SortDirection) (cmp : α → α → Ordering) [Std.TransCmp cmp] :
    Std.TransCmp (directedCmp direction cmp) := by
  cases direction with
  | ascending => exact inferInstanceAs (Std.TransCmp cmp)
  | descending =>
    have hswap : directedCmp .descending cmp = fun a b => cmp b a := by
      funext a b
      exact Std.OrientedCmp.eq_swap.symm
    rw [hswap]
    infer_instance

instance (direction : SortDirection) : Std.TransCmp (SortKey.order direction) :=
  inferInstanceAs (Std.TransCmp (compareLex _ _))

section Laws
variable {direction : SortDirection} {a b c : SortKey}

@[simp] theorem directed_eq (direction : SortDirection) : directed direction .eq = .eq := by
  cases direction <;> rfl

/-- Only keys of one row tie. -/
theorem order_eq_row (h : a.order direction b = .eq) : a.row = b.row := by
  simp only [SortKey.order, compareLex, Ordering.then_eq_eq, compareOn] at h
  exact Std.LawfulEqOrd.eq_of_compare h.2.2.2

theorem order_irrefl (a : SortKey) : a.order direction a ≠ .lt := by
  have hself : a.order direction a = .eq := Std.ReflCmp.compare_self
  rw [hself]
  exact nofun

theorem order_trans (hab : a.order direction b = .lt) (hbc : b.order direction c = .lt) :
    a.order direction c = .lt := Std.TransCmp.lt_trans hab hbc

theorem order_total (h : a.row ≠ b.row) :
    a.order direction b = .lt ∨ b.order direction a = .lt := by
  cases hab : a.order direction b with
  | lt => exact .inl rfl
  | eq => exact absurd (order_eq_row hab) h
  | gt => exact .inr (Std.OrientedCmp.gt_iff_lt.mp hab)

theorem order_of_group (h : compare a.cls.group b.cls.group ≠ .eq) :
    a.order direction b = compare a.cls.group b.cls.group := by
  simp only [SortKey.order, compareLex, compareOn]
  cases hgroup : compare a.cls.group b.cls.group with
  | eq => exact absurd hgroup h
  | lt => rfl
  | gt => rfl

theorem order_number {x y : ℚ} (ha : a.cls = .number x) (hb : b.cls = .number y) :
    a.order direction b = (directed direction (compare x y)).then (compare a.row b.row) := by
  simp [SortKey.order, compareLex, compareOn, directedCmp, ha, hb, KeyClass.group,
    KeyClass.value, KeyClass.bytes]

theorem order_text {x y : List Byte} (ha : a.cls = .text x) (hb : b.cls = .text y) :
    a.order direction b = (directed direction (compare x y)).then (compare a.row b.row) := by
  simp [SortKey.order, compareLex, compareOn, directedCmp, ha, hb, KeyClass.group,
    KeyClass.value, KeyClass.bytes]

theorem order_blank (ha : a.cls = .blank) (hb : b.cls = .blank) :
    a.order direction b = compare a.row b.row := by
  simp [SortKey.order, compareLex, compareOn, directedCmp, ha, hb, KeyClass.group,
    KeyClass.value, KeyClass.bytes]

end Laws

/-! ## The class of a key -/

/-- Two readings of one field are the same number. -/
theorem Numeral.value_unique {m m' : Numeral} (h : m.bytes = m'.bytes)
    (hexp : m.exponentAbs ≤ i64Max) : m.value = m'.value := by
  have hm := Number.run_numeral m
  have hm' := Number.run_numeral m'
  rw [← h] at hm'
  have hexp' : m'.exponentAbs ≤ i64Max := by
    have hover := hm.expOverflow.symm.trans hm'.expOverflow
    rw [decide_eq_decide] at hover
    omega
  have hleading : leadingZeros m.mantissa.digits = leadingZeros m'.mantissa.digits :=
    hm.counts.leading.symm.trans hm'.counts.leading
  have hzero : m.isZero = m'.isZero :=
    congrArg (! ·) (hm.counts.significant.symm.trans hm'.counts.significant)
  have hsign : (m.mantissa.sign = some .minus) = (m'.mantissa.sign = some .minus) := by
    have := hm.negative.symm.trans hm'.negative
    rw [Bool.eq_iff_iff, beq_iff_eq, beq_iff_eq] at this
    exact propext this
  have hsignificant : m.significant = m'.significant := by
    rw [← significantDigits_numeral, ← significantDigits_numeral, hleading, h]
  have hmagnitude : m.magnitude = m'.magnitude := by
    rw [Numeral.magnitude, Numeral.magnitude, hleading, ← hm.exponent hexp, ← hm'.exponent hexp',
      ← hm.counts.beforeDot, ← hm'.counts.beforeDot]
  rw [m.value_eq, m'.value_eq, Numeral.scaled, Numeral.scaled, hsignificant, hmagnitude,
    Numeral.signum, Numeral.signum]
  simp only [hzero, hsign]

open Classical in
/-- What a key is sorted as: any field is a text in text mode. -/
noncomputable def classOf (mode : SortMode) (key : List Byte) : KeyClass :=
  match mode with
  | .text => .text key
  | .numeric =>
    if h : ∃ m : Numeral, m.bytes = key then .number h.choose.value
    else if Blank key then .blank
    else .text key

theorem classOf_numeral (m : Numeral) (hexp : m.exponentAbs ≤ i64Max) :
    classOf .numeric m.bytes = .number m.value := by
  have h : ∃ m' : Numeral, m'.bytes = m.bytes := ⟨m, rfl⟩
  simp only [classOf, dif_pos h]
  rw [m.value_unique h.choose_spec.symm hexp]

theorem classOf_blank {key : List Byte} (hkey : ∀ m : Numeral, m.bytes ≠ key)
    (h : Blank key) : classOf .numeric key = .blank := by
  have hnone : ¬ ∃ m : Numeral, m.bytes = key := fun ⟨m, hm⟩ => hkey m hm
  simp only [classOf, dif_neg hnone, if_pos h]

theorem classOf_text {key : List Byte} (hkey : ∀ m : Numeral, m.bytes ≠ key)
    (h : ¬ Blank key) : classOf .numeric key = .text key := by
  have hnone : ¬ ∃ m : Numeral, m.bytes = key := fun ⟨m, hm⟩ => hkey m hm
  simp only [classOf, dif_neg hnone, if_neg h]

noncomputable def sortKey (mode : SortMode) (row : Nat) (key : List Byte) : SortKey :=
  ⟨classOf mode key, row⟩

theorem Summary.group_eq {key : List Byte} {d : Descriptor} (h : Summary key d) :
    d.group = (classOf .numeric key).group := by
  cases h with
  | number m hkey hexp group =>
    subst hkey
    rw [group, classOf_numeral m hexp]
    rfl
  | text hkey hblank group =>
    rw [group, classOf_text hkey hblank]
    rfl
  | blank hkey hblank group =>
    rw [group, classOf_blank hkey hblank]
    rfl

/-! ## What descriptors decide -/

/-- The order of a pair whose bytes are compared: the digits of numbers, all bytes of texts. -/
def bytesOrder (request : SortRequest) (a b : Descriptor) (left right : List Byte) : Ordering :=
  finishOrder request a b
    (if request.mode = .numeric ∧ a.group = 0 then
      signed a.sign (compareDigits (significantDigits a.leading left)
        (significantDigits b.leading right))
    else compare left right)

/-- Nothing but the bytes tells the keys apart. -/
structure ByteComparable (request : SortRequest) (a b : Descriptor) : Prop where
  group : request.mode = .numeric → a.group = b.group ∧ a.group ≠ 2
  number : request.mode = .numeric → a.group = 0 →
    a.sign = b.sign ∧ a.sign ≠ 0 ∧ a.magnitude = b.magnitude

theorem finishOrder_eq (request : SortRequest) (a b : Descriptor) (value : Ordering) :
    finishOrder request a b value =
      (directed request.direction value).then (compare a.row b.row) := rfl

/-- A difference inside the first bytes is the difference of the lists. -/
theorem compare_take (n : Nat) (left right : List Byte)
    (h : compare (left.take n) (right.take n) ≠ .eq) :
    compare left right = compare (left.take n) (right.take n) := by
  induction n generalizing left right with
  | zero => simp at h
  | succ n ih =>
    cases left with
    | nil =>
      cases right with
      | nil => rfl
      | cons r right => rfl
    | cons l left =>
      cases right with
      | nil => rfl
      | cons r right =>
        simp only [List.take_succ_cons, List.compare_cons_cons] at h ⊢
        cases hlr : compare l r with
        | eq =>
          rw [hlr] at h
          exact congrArg _ (ih left right h)
        | lt => rfl
        | gt => rfl

section Decide
variable {document : List Byte} {quote : Byte} {request : SortRequest} {rowA rowB : Nat}
  {keyA keyB : List Byte} {a b : Descriptor}

theorem bytesOrder_eq (ha : a.Describes document quote request.mode rowA keyA)
    (hb : b.Describes document quote request.mode rowB keyB) (h : ByteComparable request a b) :
    bytesOrder request a b keyA keyB = (sortKey request.mode rowA keyA).order request.direction
      (sortKey request.mode rowB keyB) := by
  rw [bytesOrder, finishOrder_eq, ha.row_eq, hb.row_eq]
  cases hmode : request.mode with
  | text =>
    rw [if_neg (by simp)]
    exact (order_text (a := sortKey .text rowA keyA) (b := sortKey .text rowB keyB) rfl rfl).symm
  | numeric =>
    obtain ⟨hgroup, hne⟩ := h.group hmode
    cases ha.summary hmode with
    | number m hkey hexp group sign magnitude leading =>
      subst hkey
      obtain ⟨hsign, hne, hmagnitude⟩ := h.number hmode group
      cases hb.summary hmode with
      | number m' hkey' hexp' group' sign' magnitude' leading' =>
        subst hkey'
        rw [if_pos ⟨rfl, group⟩, leading, leading', significantDigits_numeral,
          significantDigits_numeral]
        have hcompare := compare_value m m'
        rw [← sign, ← sign', ← magnitude, ← magnitude', ← hsign, ← hmagnitude, if_neg hne,
          compare_eq_iff_eq.mpr rfl, compare_eq_iff_eq.mpr rfl] at hcompare
        rw [order_number (classOf_numeral m hexp) (classOf_numeral m' hexp'), hcompare]
        rfl
      | text _ _ group' => omega
      | blank _ _ group' => omega
    | text hkey hblank group =>
      cases hb.summary hmode with
      | number m' hkey' hexp' group' => omega
      | text hkey' hblank' group' =>
        rw [if_neg (by rw [group]; simp), order_text (classOf_text hkey hblank)
          (classOf_text hkey' hblank')]
        rfl
      | blank _ _ group' => omega
    | blank _ _ group => omega

theorem decideOrder_eq_none (h : decideOrder a b request = none) : ByteComparable request a b := by
  unfold decideOrder at h
  constructor
  · intro hmode
    simp only [hmode, true_and] at h
    split_ifs at h with hgroup hblank <;> exact ⟨compare_eq_iff_eq.mp (not_not.mp hgroup), hblank⟩
  · intro hmode hnumber
    simp only [hmode, true_and, hnumber] at h
    split_ifs at h with hgroup hblank hsign hzero hmagnitude hshort
    exact ⟨compare_eq_iff_eq.mp (not_not.mp hsign), hzero,
      compare_eq_iff_eq.mp (not_not.mp hmagnitude)⟩

/-- The front of two texts decides as their bytes do. -/
theorem decideOrder_text (ha : a.Describes document quote request.mode rowA keyA)
    (hb : b.Describes document quote request.mode rowB keyB)
    (htext : request.mode = .numeric → a.group = b.group ∧ a.group ≠ 2 ∧ a.group ≠ 0)
    {order : Ordering} (h : decideOrder a b request = some order) :
    order = bytesOrder request a b keyA keyB := by
  have hgroup : ¬ (request.mode = .numeric ∧ compare a.group b.group ≠ .eq) := by
    rintro ⟨hmode, hne⟩
    exact hne (compare_eq_iff_eq.mpr (htext hmode).1)
  have hblank : ¬ (request.mode = .numeric ∧ a.group = 2) := fun h => (htext h.1).2.1 h.2
  have hnumber : ¬ (request.mode = .numeric ∧ a.group = 0) := fun h => (htext h.1).2.2 h.2
  rw [decideOrder, if_neg hgroup, if_neg hblank, if_neg hnumber, ha.head_eq, hb.head_eq] at h
  rw [bytesOrder, if_neg hnumber]
  split_ifs at h with hhead hshort
  · cases h
    rw [compare_take prefixLen keyA keyB hhead]
  · cases h
    rw [ha.len_eq, hb.len_eq] at hshort
    have hkeys := Std.LawfulEqOrd.eq_of_compare (not_not.mp hhead)
    rw [List.take_of_length_le hshort.1, List.take_of_length_le hshort.2] at hkeys
    rw [hkeys, finishOrder_eq, Std.ReflOrd.compare_self, directed_eq]
    rfl

/-- The parts of two numbers decide as their values do. -/
theorem decideOrder_number {m m' : Numeral}
    (ha : a.Describes document quote request.mode rowA m.bytes)
    (hb : b.Describes document quote request.mode rowB m'.bytes) (hmode : request.mode = .numeric)
    (hgroup : a.group = 0 ∧ b.group = 0) (hsign : a.sign = m.signum ∧ b.sign = m'.signum)
    (hmagnitude : a.magnitude = m.magnitude ∧ b.magnitude = m'.magnitude)
    (hleading : a.leading = leadingZeros m.mantissa.digits ∧
      b.leading = leadingZeros m'.mantissa.digits)
    {order : Ordering} (h : decideOrder a b request = some order) :
    order = finishOrder request a b (compare m.value m'.value) := by
  have hshort {d : Descriptor} {key : List Byte} {row : Nat}
      (hd : d.Describes document quote request.mode row key) (hlen : d.len ≤ prefixLen) :
      d.prefixBytes.toList.take d.len = key := by
    have hhead := hd.head_eq
    have hlen' := hd.len_eq
    have hkey : key.take prefixLen = key := List.take_of_length_le (by omega)
    rw [Descriptor.head, Nat.min_eq_left hlen, hkey] at hhead
    exact hhead
  rw [compare_value m m', ← hsign.1, ← hsign.2, ← hmagnitude.1, ← hmagnitude.2]
  simp only [decideOrder, hmode, hgroup.1, hgroup.2, true_and, ne_eq] at h
  rw [if_neg (by simp), if_neg (by simp), if_pos trivial] at h
  by_cases hs : compare a.sign b.sign = .eq
  · rw [if_neg (not_not.mpr hs)] at h
    rw [hs]
    by_cases hzero : a.sign = 0
    · rw [if_pos hzero] at h
      cases h
      rw [if_pos hzero, finishOrder_eq]
      simp
    · rw [if_neg hzero] at h
      rw [if_neg hzero]
      by_cases hm : compare a.magnitude b.magnitude = .eq
      · rw [if_neg (not_not.mpr hm)] at h
        by_cases hlens : a.len ≤ prefixLen ∧ b.len ≤ prefixLen
        · rw [if_pos hlens] at h
          cases h
          rw [hm, shortNumberOrder, hshort ha hlens.1, hshort hb hlens.2, hleading.1, hleading.2,
            significantDigits_numeral, significantDigits_numeral]
          rfl
        · rw [if_neg hlens] at h
          cases h
      · rw [if_pos hm] at h
        cases h
        cases hc : compare a.magnitude b.magnitude with
        | eq => exact absurd hc hm
        | lt => rfl
        | gt => rfl
  · rw [if_pos hs] at h
    cases h
    cases hc : compare a.sign b.sign with
    | eq => exact absurd hc hs
    | lt => rfl
    | gt => rfl

/-- Whatever two descriptors decide is the order of their keys. -/
theorem decideOrder_eq_some (ha : a.Describes document quote request.mode rowA keyA)
    (hb : b.Describes document quote request.mode rowB keyB) {order : Ordering}
    (h : decideOrder a b request = some order) :
    order = (sortKey request.mode rowA keyA).order request.direction
      (sortKey request.mode rowB keyB) := by
  cases hmode : request.mode with
  | text =>
    have hbytes : ByteComparable request a b :=
      ⟨fun h => by simp [hmode] at h, fun h => by simp [hmode] at h⟩
    rw [decideOrder_text ha hb (fun h => by simp [hmode] at h) h, bytesOrder_eq ha hb hbytes, hmode]
  | numeric =>
    have hA := (ha.summary hmode).group_eq
    have hB := (hb.summary hmode).group_eq
    by_cases hgroup : a.group = b.group
    · cases ha.summary hmode with
      | number m hkey hexp group sign magnitude leading =>
        subst hkey
        cases hb.summary hmode with
        | number m' hkey' hexp' group' sign' magnitude' leading' =>
          subst hkey'
          rw [decideOrder_number ha hb hmode ⟨group, group'⟩ ⟨sign, sign'⟩ ⟨magnitude, magnitude'⟩
            ⟨leading, leading'⟩ h, finishOrder_eq, ha.row_eq, hb.row_eq,
            order_number (classOf_numeral m hexp) (classOf_numeral m' hexp')]
          rfl
        | text _ _ group' => omega
        | blank _ _ group' => omega
      | text hkey hblank group =>
        have hbytes : ByteComparable request a b :=
          ⟨fun _ => ⟨hgroup, by omega⟩, fun _ hzero => by omega⟩
        rw [decideOrder_text ha hb (fun _ => ⟨hgroup, by omega, by omega⟩) h,
          bytesOrder_eq ha hb hbytes, hmode]
      | blank hkey hblank group =>
        cases hb.summary hmode with
        | number _ _ _ group' => omega
        | text _ _ group' => omega
        | blank hkey' hblank' group' =>
          simp only [decideOrder, hmode, group, group', true_and, ne_eq] at h
          rw [if_neg (by simp), if_pos trivial] at h
          cases h
          rw [ha.row_eq, hb.row_eq]
          exact (order_blank (a := sortKey .numeric rowA keyA) (b := sortKey .numeric rowB keyB)
            (classOf_blank hkey hblank) (classOf_blank hkey' hblank')).symm
    · have hne : compare a.group b.group ≠ .eq := fun h => hgroup (compare_eq_iff_eq.mp h)
      rw [decideOrder, if_pos ⟨hmode, hne⟩] at h
      cases h
      rw [hA, hB] at hne
      rw [hA, hB]
      exact (order_of_group (a := sortKey .numeric rowA keyA) (b := sortKey .numeric rowB keyB)
        hne).symm

end Decide

end LeanRows.Sort
