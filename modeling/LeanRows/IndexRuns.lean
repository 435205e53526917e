import LeanRows.Index

/-!
# What an adaptive index holds after a run of observations

Compaction keeps the entries at even positions and doubles the stride, so an index that saw
every row holds exactly the multiples of its stride. Rows and strides are `u64`: the last
doubling saturates.
-/

namespace LeanRows

set_option autoImplicit false

/-- Further on in both coordinates. -/
def Checkpoint.Before (a b : Checkpoint) : Prop := a.row < b.row ∧ a.offset < b.offset

theorem Checkpoint.Before.trans {a b c : Checkpoint} (hab : a.Before b) (hbc : b.Before c) :
    a.Before c :=
  ⟨hab.1.trans hbc.1, hab.2.trans hbc.2⟩

namespace Cadence

/-- How far `b` lies behind `a`, counted in the unit of the stride. -/
def distance : Cadence → Checkpoint → Checkpoint → Nat
  | .rows, a, b => b.row - a.row
  | .bytes, a, b => b.offset - a.offset

theorem distance_le_of_before (cadence : Cadence) {a b c : Checkpoint} (h : a.Before b) :
    cadence.distance b c ≤ cadence.distance a c := by
  obtain ⟨hrow, hoffset⟩ := h
  cases cadence <;> simp only [distance] <;> omega

end Cadence

theorem everyOther_sublist {α : Type} (xs : List α) : (everyOther xs).Sublist xs := by
  match xs with
  | [] => exact List.Sublist.refl _
  | [_] => exact List.Sublist.refl _
  | a :: b :: rest => exact ((everyOther_sublist rest).cons b).cons_cons a

theorem getElem?_everyOther {α : Type} (xs : List α) (i : Nat) :
    (everyOther xs)[i]? = xs[2 * i]? := by
  match xs, i with
  | [], _ => rfl
  | [_], 0 => rfl
  | [_], _ + 1 => simp [everyOther]
  | _ :: _ :: _, 0 => rfl
  | _ :: _ :: rest, i + 1 =>
    rw [everyOther, List.getElem?_cons_succ, getElem?_everyOther rest i]
    rfl

theorem length_everyOther {α : Type} (xs : List α) :
    (everyOther xs).length = (xs.length + 1) / 2 := by
  match xs with
  | [] => simp [everyOther]
  | [_] => simp [everyOther]
  | _ :: _ :: rest =>
    rw [everyOther, List.length_cons, length_everyOther rest, List.length_cons, List.length_cons]
    omega

namespace AdaptiveIndex

/-- A full index is thinned before the next candidate is looked at. -/
def makeRoom (index : AdaptiveIndex) : AdaptiveIndex :=
  if index.entries.length = index.capacityLimit then index.compact else index

theorem makeRoom_sublist (index : AdaptiveIndex) :
    index.makeRoom.entries.Sublist index.entries := by
  unfold makeRoom
  split
  · exact everyOther_sublist index.entries
  · exact List.Sublist.refl _

/-- What an accepted observation of a new candidate does. -/
theorem observe_next {index next : AdaptiveIndex} {candidate : Checkpoint}
    {update : IndexUpdate} (h : index.observe candidate = .ok (next, update))
    (hnew : candidate ≠ index.lastObserved) :
    index.lastObserved.Before candidate ∧ next.lastObserved = candidate ∧
      next.capacityLimit = index.capacityLimit ∧ next.cadence = index.cadence ∧
      next.stride = index.makeRoom.stride ∧
      next.entries = index.makeRoom.entries ++
        if index.makeRoom.stride ≤ index.cadence.distance index.makeRoom.last candidate then
          [candidate] else [] := by
  unfold observe at h
  rw [if_neg hnew] at h
  split at h
  · cases h
  rename_i hahead
  simp only [Except.ok.injEq, Prod.mk.injEq] at h
  obtain ⟨rfl, -⟩ := h
  refine ⟨⟨by omega, by omega⟩, ?_⟩
  generalize hroom : (if (index.entries.length == index.capacityLimit) = true then
    ({ index with lastObserved := candidate } : AdaptiveIndex).compact
    else { index with lastObserved := candidate }) = room
  have hsame : room.lastObserved = candidate ∧ room.capacityLimit = index.capacityLimit ∧
      room.cadence = index.cadence ∧ room.stride = index.makeRoom.stride ∧
      room.entries = index.makeRoom.entries := by
    rw [← hroom, makeRoom]
    by_cases hfull : index.entries.length = index.capacityLimit <;> simp [hfull, compact]
  obtain ⟨hlast, hcapacity, hcadence, hstride, hentries⟩ := hsame
  generalize hstored : decide (room.stride ≤ _) = stored
  have hdelta : stored =
      decide (room.stride ≤ index.cadence.distance index.makeRoom.last candidate) := by
    rw [← hstored, ← hcadence, last]
    simp only [last, ← hentries]
    cases room.cadence <;> rfl
  rw [← hstride, ← hentries, ← hlast, ← hcapacity, ← hcadence]
  cases stored with
  | true => simp_all [push]
  | false => simp_all

/-- Observing a list of candidates in turn; the first rejected one ends the run. -/
def observeAll (index : AdaptiveIndex) : List Checkpoint →
    Except CheckpointIndexError AdaptiveIndex
  | [] => .ok index
  | candidate :: rest =>
    match index.observe candidate with
    | .ok (next, _) => next.observeAll rest
    | .error error => .error error

theorem observeAll_append (index : AdaptiveIndex) (front back : List Checkpoint) :
    index.observeAll (front ++ back) =
      match index.observeAll front with
      | .ok next => next.observeAll back
      | .error error => .error error := by
  induction front generalizing index with
  | nil => rfl
  | cons candidate front ih =>
    rw [List.cons_append, observeAll, observeAll]
    cases index.observe candidate with
    | error error => rfl
    | ok result => exact ih result.1

/-- Entries of an index that saw `seen`: in order, sampled from `seen`, and nowhere closer
than the initial stride. -/
structure Sampled (initial : Nat) (seen : List Checkpoint) (index : AdaptiveIndex) : Prop where
  stride : initial ≤ index.stride
  apart : index.entries.Pairwise fun a b =>
    a.Before b ∧ initial ≤ index.cadence.distance a b
  observed : ∀ entry ∈ index.entries, entry ∈ Checkpoint.origin :: seen
  reached : ∀ entry ∈ index.entries, entry = index.lastObserved ∨ entry.Before index.lastObserved

theorem new_sampled {capacity initial : Nat} {cadence : Cadence} {index : AdaptiveIndex}
    (h : new capacity initial cadence = .ok index) : index.Sampled initial [] := by
  unfold new at h
  split at h
  · cases h
  split at h
  · cases h
  cases h
  exact ⟨Nat.le_refl _, List.pairwise_singleton _ _, fun entry hentry => hentry,
    fun entry hentry => .inl (List.mem_singleton.mp hentry)⟩

theorem new_lastObserved {capacity initial : Nat} {cadence : Cadence} {index : AdaptiveIndex}
    (h : new capacity initial cadence = .ok index) :
    index.lastObserved = Checkpoint.origin ∧ index.cadence = cadence := by
  unfold new at h
  split at h
  · cases h
  split at h
  · cases h
  cases h
  exact ⟨rfl, rfl⟩

theorem makeRoom_stride_le {initial : Nat} {index : AdaptiveIndex} (h : initial ≤ index.stride)
    (hbound : initial < u64Bound) : initial ≤ index.makeRoom.stride := by
  unfold makeRoom
  split
  · exact Nat.le_min.mpr ⟨by omega, by omega⟩
  · exact h

theorem Sampled.observe {initial : Nat} {seen : List Checkpoint} {index next : AdaptiveIndex}
    {candidate : Checkpoint} {update : IndexUpdate} (hbound : initial < u64Bound)
    (hinv : index.Sampled initial seen) (h : index.observe candidate = .ok (next, update)) :
    next.Sampled initial (seen ++ [candidate]) := by
  have hseen : ∀ entry ∈ Checkpoint.origin :: seen,
      entry ∈ Checkpoint.origin :: (seen ++ [candidate]) := by
    intro entry hentry
    exact List.mem_append_left [candidate] hentry
  by_cases hsame : candidate = index.lastObserved
  · rw [AdaptiveIndex.observe, if_pos hsame] at h
    cases h
    exact ⟨hinv.stride, hinv.apart, fun entry hentry => hseen _ (hinv.observed entry hentry),
      hinv.reached⟩
  obtain ⟨hahead, hlast, -, hcadence, hstride, hentries⟩ := observe_next h hsame
  have hkept := index.makeRoom_sublist
  have hbefore : ∀ entry ∈ index.entries, entry.Before candidate := by
    intro entry hentry
    rcases hinv.reached entry hentry with rfl | hentry
    · exact hahead
    · exact hentry.trans hahead
  have hroom := makeRoom_stride_le hinv.stride hbound
  constructor
  · rw [hstride]
    exact hroom
  · rw [hentries, hcadence, List.pairwise_append]
    refine ⟨hinv.apart.sublist hkept, by split <;> simp, ?_⟩
    intro a ha b hb
    split at hb
    · rename_i hstored
      obtain rfl := List.mem_singleton.mp hb
      refine ⟨hbefore a (hkept.subset ha), ?_⟩
      -- every kept entry lies at or before the last one, so it is no closer
      have hfar : index.cadence.distance index.makeRoom.last b ≤ index.cadence.distance a b := by
        have hsorted := hinv.apart.sublist hkept
        have hne := index.makeRoom.entries_ne_nil
        rw [← List.dropLast_append_getLast hne, List.pairwise_append] at hsorted
        rw [← List.dropLast_append_getLast hne] at ha
        rcases List.mem_append.mp ha with ha | ha
        · exact index.cadence.distance_le_of_before
            (hsorted.2.2 a ha _ (List.mem_singleton_self _)).1
        · rw [List.mem_singleton.mp ha]
          exact Nat.le_refl _
      omega
    · cases hb
  · intro entry hentry
    rw [hentries] at hentry
    rcases List.mem_append.mp hentry with hentry | hentry
    · exact hseen _ (hinv.observed _ (hkept.subset hentry))
    · split at hentry
      · rw [List.mem_singleton.mp hentry]
        simp
      · cases hentry
  · intro entry hentry
    rw [hentries] at hentry
    rw [hlast]
    rcases List.mem_append.mp hentry with hentry | hentry
    · exact .inr (hbefore _ (hkept.subset hentry))
    · split at hentry
      · exact .inl (List.mem_singleton.mp hentry)
      · cases hentry

theorem Sampled.observeAll {initial : Nat} {seen more : List Checkpoint}
    {index final : AdaptiveIndex} (hbound : initial < u64Bound)
    (hinv : index.Sampled initial seen) (h : index.observeAll more = .ok final) :
    final.Sampled initial (seen ++ more) := by
  induction more generalizing index seen with
  | nil =>
    cases h
    rwa [List.append_nil]
  | cons candidate more ih =>
    rw [AdaptiveIndex.observeAll] at h
    split at h
    · rename_i next update hobserve
      have hrest := ih (hinv.observe hbound hobserve) h
      rwa [List.append_assoc] at hrest
    · cases h

theorem observe_cadence {index next : AdaptiveIndex} {candidate : Checkpoint}
    {update : IndexUpdate} (h : index.observe candidate = .ok (next, update)) :
    next.cadence = index.cadence ∧ next.lastObserved = candidate := by
  by_cases hsame : candidate = index.lastObserved
  · rw [AdaptiveIndex.observe, if_pos hsame] at h
    cases h
    exact ⟨rfl, hsame.symm⟩
  · obtain ⟨-, hlast, -, hcadence, -⟩ := observe_next h hsame
    exact ⟨hcadence, hlast⟩

/-- Strictly increasing observations are all accepted. -/
theorem observeAll_isOk (index : AdaptiveIndex) {seen : List Checkpoint}
    (hfirst : ∀ candidate ∈ seen.head?,
      candidate = index.lastObserved ∨ index.lastObserved.Before candidate)
    (hsorted : seen.Pairwise Checkpoint.Before) :
    ∃ final, index.observeAll seen = .ok final ∧ final.cadence = index.cadence := by
  induction seen generalizing index with
  | nil => exact ⟨index, rfl, rfl⟩
  | cons candidate seen ih =>
    obtain ⟨next, update, hobserve⟩ := observe_isOk (hfirst candidate rfl)
    obtain ⟨hcadence, hlast⟩ := observe_cadence hobserve
    obtain ⟨hbefore, hsorted⟩ := List.pairwise_cons.mp hsorted
    obtain ⟨final, hfinal, hsame⟩ := ih next
      (fun later hlater => .inr (by
        rw [hlast]
        exact hbefore later (List.mem_of_mem_head? hlater))) hsorted
    refine ⟨final, ?_, hsame.trans hcadence⟩
    rw [observeAll, hobserve]
    exact hfinal

/-- The checkpoint at the start of row `row`. -/
def boundary (offset : Nat → Nat) (row : Nat) : Checkpoint := ⟨row, offset row⟩

/-- The boundaries of the rows `0..=n` that a stride of `stride` picks. -/
def multiples (offset : Nat → Nat) (stride n : Nat) : List Checkpoint :=
  (List.range (n / stride + 1)).map fun i => boundary offset (i * stride)

theorem length_multiples (offset : Nat → Nat) (stride n : Nat) :
    (multiples offset stride n).length = n / stride + 1 := by
  simp [multiples]

theorem multiples_of_lt {offset : Nat → Nat} {stride n : Nat} (h : n < stride) :
    multiples offset stride n = [boundary offset 0] := by
  simp [multiples, Nat.div_eq_of_lt h]

theorem mem_multiples {offset : Nat → Nat} {stride n : Nat} (h : 0 < stride)
    {entry : Checkpoint} : entry ∈ multiples offset stride n ↔
      stride ∣ entry.row ∧ entry.row ≤ n ∧ entry.offset = offset entry.row := by
  unfold multiples
  rw [List.mem_map]
  constructor
  · rintro ⟨i, hi, rfl⟩
    have hle := (Nat.le_div_iff_mul_le h).mp (Nat.lt_succ_iff.mp (List.mem_range.mp hi))
    exact ⟨Nat.dvd_mul_left _ _, hle, rfl⟩
  · rintro ⟨⟨i, hi⟩, hle, hoffset⟩
    rw [Nat.mul_comm] at hi
    refine ⟨i, List.mem_range.mpr (Nat.lt_succ_iff.mpr ((Nat.le_div_iff_mul_le h).mpr ?_)), ?_⟩
    · rwa [← hi]
    · rw [← hi, boundary, ← hoffset]

theorem everyOther_multiples (offset : Nat → Nat) (stride n : Nat) :
    everyOther (multiples offset stride n) = multiples offset (stride * 2) n := by
  apply List.ext_getElem?
  intro i
  rw [getElem?_everyOther, multiples, multiples, List.getElem?_map, List.getElem?_map,
    ← Nat.div_div_eq_div_mul]
  by_cases hi : i < n / stride / 2 + 1
  · rw [List.getElem?_range (by omega), List.getElem?_range hi, Option.map_some, Option.map_some,
      Nat.mul_assoc, Nat.mul_left_comm, Nat.mul_comm 2]
  · rw [List.getElem?_eq_none (by simp; omega), List.getElem?_eq_none (by simp; omega)]
    rfl

theorem multiples_succ (offset : Nat → Nat) (stride n : Nat) :
    multiples offset stride (n + 1) =
      multiples offset stride n ++ if stride ∣ n + 1 then [boundary offset (n + 1)] else [] := by
  unfold multiples
  rw [Nat.succ_div]
  split
  · rename_i hdvd
    have hlast : (n / stride + 1) * stride = n + 1 := by
      have := Nat.div_mul_cancel hdvd
      rwa [Nat.succ_div, if_pos hdvd] at this
    rw [List.range_succ (n := n / stride + 1), List.map_append]
    simp only [List.map_singleton, hlast]
  · rw [List.append_nil, Nat.add_zero]

/-- The index after the rows `0..=n`: every multiple of its stride, and full only when the
last row was stored. -/
structure Canonical (capacity initial : Nat) (offset : Nat → Nat) (n : Nat)
    (index : AdaptiveIndex) : Prop where
  capacityLimit : index.capacityLimit = capacity
  cadence : index.cadence = .rows
  lastObserved : index.lastObserved = boundary offset n
  entries : index.entries = multiples offset index.stride n
  doubled : ∃ k, index.stride = min (initial * 2 ^ k) (u64Bound - 1)
  stride_pos : 0 < index.stride
  room : index.entries.length ≤ capacity
  full : index.entries.length = capacity → n = index.stride * (capacity - 1)
  coarse : index.stride = initial ∨ index.stride * (capacity - 1) ≤ 2 * n

theorem doubled_again {stride initial : Nat}
    (h : ∃ k, stride = min (initial * 2 ^ k) (u64Bound - 1)) :
    ∃ k, min (stride * 2) (u64Bound - 1) = min (initial * 2 ^ k) (u64Bound - 1) := by
  obtain ⟨k, rfl⟩ := h
  refine ⟨k + 1, ?_⟩
  rw [Nat.pow_succ, ← Nat.mul_assoc]
  generalize initial * 2 ^ k = a
  generalize u64Bound - 1 = b
  omega

/-- Making room for row `n + 1` keeps the canonical form and leaves a free entry. -/
theorem Canonical.makeRoom {capacity initial : Nat} {offset : Nat → Nat} {n : Nat}
    {index : AdaptiveIndex} (h : index.Canonical capacity initial offset n)
    (hcapacity : 2 ≤ capacity) (hn : n + 1 < u64Bound) :
    index.makeRoom.entries = multiples offset index.makeRoom.stride n ∧
      (∃ k, index.makeRoom.stride = min (initial * 2 ^ k) (u64Bound - 1)) ∧
      0 < index.makeRoom.stride ∧ index.makeRoom.entries.length < capacity ∧
      (index.makeRoom.stride = initial ∨ index.makeRoom.stride * (capacity - 1) ≤ 2 * n) := by
  by_cases hfull : index.entries.length = index.capacityLimit
  · rw [AdaptiveIndex.makeRoom, if_pos hfull]
    rw [h.capacityLimit] at hfull
    have hpos := h.stride_pos
    have hlast := h.full hfull
    refine ⟨?_, doubled_again h.doubled, ?_, ?_, ?_⟩
    · change everyOther index.entries =
        multiples offset (min (index.stride * 2) (u64Bound - 1)) n
      rw [h.entries, everyOther_multiples]
      -- once the doubling saturates, the origin is the only multiple in reach
      by_cases hsaturated : index.stride * 2 ≤ u64Bound - 1
      · rw [Nat.min_eq_left hsaturated]
      · rw [Nat.min_eq_right (by omega), multiples_of_lt (by omega), multiples_of_lt (by omega)]
    · exact Nat.lt_min.mpr ⟨by omega, by omega⟩
    · change (everyOther index.entries).length < capacity
      rw [length_everyOther, hfull]
      omega
    · refine .inr ?_
      calc min (index.stride * 2) (u64Bound - 1) * (capacity - 1)
          ≤ index.stride * 2 * (capacity - 1) := Nat.mul_le_mul_right _ (Nat.min_le_left _ _)
        _ = 2 * n := by rw [hlast, Nat.mul_comm index.stride, Nat.mul_assoc]
  · rw [AdaptiveIndex.makeRoom, if_neg hfull]
    rw [h.capacityLimit] at hfull
    exact ⟨h.entries, h.doubled, h.stride_pos, lt_of_le_of_ne h.room hfull, h.coarse⟩

theorem last_of_entries {offset : Nat → Nat} {n : Nat} {index : AdaptiveIndex}
    (h : index.entries = multiples offset index.stride n) :
    index.last = boundary offset (n / index.stride * index.stride) := by
  unfold last
  simp only [h, multiples, List.range_succ, List.map_append, List.map_singleton,
    List.getLast_append_singleton]

/-- Row `n + 1` is a multiple of the stride exactly if it lies a stride behind the last one. -/
theorem stride_le_distance_iff {stride n : Nat} (h : 0 < stride) :
    stride ≤ n + 1 - n / stride * stride ↔ stride ∣ n + 1 := by
  have hsplit := Nat.div_add_mod n stride
  have hlt := Nat.mod_lt n h
  rw [Nat.mul_comm] at hsplit
  have hgap : n + 1 - n / stride * stride = n % stride + 1 := by omega
  have hdvd : stride ∣ n + 1 ↔ stride ∣ n % stride + 1 := by
    have hsum : n + 1 = n / stride * stride + (n % stride + 1) := by omega
    rw [hsum, Nat.dvd_add_right (Nat.dvd_mul_left stride _)]
  rw [hgap, hdvd]
  constructor
  · intro hle
    have hwhole : n % stride + 1 = stride := by omega
    rw [hwhole]
  · exact Nat.le_of_dvd (Nat.succ_pos _)

theorem Canonical.observe {capacity initial : Nat} {offset : Nat → Nat} {n : Nat}
    {index next : AdaptiveIndex} {update : IndexUpdate}
    (hinv : index.Canonical capacity initial offset n) (hcapacity : 2 ≤ capacity)
    (hn : n + 1 < u64Bound)
    (h : index.observe (boundary offset (n + 1)) = .ok (next, update)) :
    next.Canonical capacity initial offset (n + 1) := by
  have hnew : boundary offset (n + 1) ≠ index.lastObserved := by
    rw [hinv.lastObserved]
    intro heq
    have := congrArg Checkpoint.row heq
    simp [boundary] at this
  obtain ⟨-, hlast, hlimit, hcadence, hstride, hentries⟩ := observe_next h hnew
  obtain ⟨hroom, hdoubled, hpos, hfree, hcoarse⟩ := hinv.makeRoom hcapacity hn
  have hcandidate : index.cadence.distance index.makeRoom.last (boundary offset (n + 1)) =
      n + 1 - n / index.makeRoom.stride * index.makeRoom.stride := by
    rw [hinv.cadence, last_of_entries hroom]
    rfl
  have hnext : next.entries = multiples offset next.stride (n + 1) := by
    rw [hentries, hcandidate, hstride, hroom, multiples_succ]
    simp only [stride_le_distance_iff hpos]
  have hlength := congrArg List.length hentries
  rw [hcandidate, List.length_append] at hlength
  constructor
  · rw [hlimit, hinv.capacityLimit]
  · rw [hcadence, hinv.cadence]
  · exact hlast
  · exact hnext
  · rw [hstride]
    exact hdoubled
  · rw [hstride]
    exact hpos
  · split at hlength <;> simp only [List.length_singleton, List.length_nil] at hlength <;> omega
  · intro hfull
    -- a free entry was left, so the candidate took it: its row is the last multiple
    have hstored : index.makeRoom.stride ∣ n + 1 := by
      rw [← stride_le_distance_iff hpos]
      by_contra hskip
      rw [if_neg hskip] at hlength
      simp only [List.length_nil] at hlength
      omega
    have hcount := congrArg List.length hnext
    rw [length_multiples, hfull, hstride] at hcount
    have hexact := Nat.div_mul_cancel hstored
    rw [hstride, hcount, Nat.add_sub_cancel, Nat.mul_comm]
    exact hexact.symm
  · rw [hstride]
    rcases hcoarse with hcoarse | hcoarse
    · exact .inl hcoarse
    · exact .inr (hcoarse.trans (by omega))

theorem new_canonical {capacity initial : Nat} {offset : Nat → Nat} {index : AdaptiveIndex}
    (h : new capacity initial .rows = .ok index) (hbound : initial < u64Bound)
    (horigin : offset 0 = 0) : index.Canonical capacity initial offset 0 := by
  unfold new at h
  split at h
  · cases h
  split at h
  · cases h
  rename_i hcapacity hinitial
  cases h
  have hentries : [Checkpoint.origin] = multiples offset initial 0 := by
    rw [multiples_of_lt (by omega), boundary, horigin]
    rfl
  refine ⟨rfl, rfl, ?_, hentries, ⟨0, ?_⟩, Nat.pos_of_ne_zero hinitial, ?_, ?_, .inl rfl⟩
  · rw [boundary, horigin]
    rfl
  · rw [Nat.pow_zero, Nat.mul_one]
    exact (Nat.min_eq_left (Nat.le_sub_one_of_lt hbound)).symm
  · show 1 ≤ capacity
    omega
  · intro hfull
    change 1 = capacity at hfull
    omega

/-- The boundaries of the rows `0..=n`. -/
def boundaries (offset : Nat → Nat) (n : Nat) : List Checkpoint :=
  (List.range (n + 1)).map (boundary offset)

theorem observeAll_canonical {capacity initial : Nat} (offset : Nat → Nat)
    {index : AdaptiveIndex} (hnew : new capacity initial .rows = .ok index)
    (hbound : initial < u64Bound) (horigin : offset 0 = 0) {n : Nat} (hn : n < u64Bound)
    (hoffset : ∀ row < n, offset row < offset (row + 1)) :
    ∃ final, index.observeAll (boundaries offset n) = .ok final ∧
      final.Canonical capacity initial offset n := by
  have hstart := new_canonical hnew hbound horigin
  have hcapacity : 2 ≤ capacity := by
    unfold new at hnew
    split at hnew
    · cases hnew
    · omega
  induction n with
  | zero =>
    refine ⟨index, ?_, hstart⟩
    have hsame : boundary offset 0 = index.lastObserved := hstart.lastObserved.symm
    change index.observeAll [boundary offset 0] = .ok index
    simp only [observeAll, AdaptiveIndex.observe, if_pos hsame]
  | succ n ih =>
    obtain ⟨middle, hmiddle, hinv⟩ := ih (by omega) fun row hrow => hoffset row (by omega)
    have hahead : middle.lastObserved.Before (boundary offset (n + 1)) := by
      rw [hinv.lastObserved]
      exact ⟨Nat.lt_succ_self n, hoffset n (Nat.lt_succ_self n)⟩
    obtain ⟨final, update, hfinal⟩ := observe_isOk (.inr hahead)
    refine ⟨final, ?_, hinv.observe hcapacity hn hfinal⟩
    have hrows : boundaries offset (n + 1) = boundaries offset n ++ [boundary offset (n + 1)] := by
      unfold boundaries
      rw [List.range_succ, List.map_append, List.map_singleton]
    rw [hrows, observeAll_append, hmiddle]
    simp only [observeAll, hfinal]

theorem takeWhile_range {p : Nat → Bool} {m k : Nat} (hk : k ≤ m)
    (hp : ∀ i < m, p i = decide (i < k)) : (List.range m).takeWhile p = List.range k := by
  have hsplit : List.range m = List.range k ++ (List.range (m - k)).map (k + ·) := by
    rw [← List.range_add, Nat.add_sub_cancel' hk]
  rw [hsplit, List.takeWhile_append_of_pos]
  · cases hrest : m - k with
    | zero => simp
    | succ rest =>
      rw [List.range_succ_eq_map, List.map_cons, List.takeWhile_cons_of_neg, List.append_nil]
      rw [hp _ (by omega)]
      simp
  · intro i hi
    rw [List.mem_range] at hi
    rw [hp i (by omega)]
    exact decide_eq_true hi

/-- A lookup finds the last multiple of the stride at or before the row. -/
theorem Canonical.nearest {capacity initial : Nat} {offset : Nat → Nat} {n row : Nat}
    {index : AdaptiveIndex} (h : index.Canonical capacity initial offset n) (hrow : row ≤ n) :
    index.nearest row = boundary offset (row - row % index.stride) := by
  have hpos := h.stride_pos
  have hquot : row / index.stride ≤ n / index.stride := Nat.div_le_div_right hrow
  have hbefore : index.entries.takeWhile (fun entry => decide (entry.row ≤ row)) =
      (List.range (row / index.stride + 1)).map fun i => boundary offset (i * index.stride) := by
    rw [h.entries, multiples, List.takeWhile_map, takeWhile_range (k := row / index.stride + 1)]
    · omega
    · intro i _
      simp only [Function.comp, boundary, ← Nat.le_div_iff_mul_le hpos, Nat.lt_succ_iff]
  have hexact : row / index.stride * index.stride = row - row % index.stride := by
    have := Nat.div_add_mod row index.stride
    rw [Nat.mul_comm] at this
    omega
  unfold AdaptiveIndex.nearest
  rw [hbefore, List.length_map, List.length_range]
  change index.entries.getD (row / index.stride) .origin = _
  rw [h.entries, multiples, List.getD_eq_getElem _ _ (by simp; omega), List.getElem_map,
    List.getElem_range, hexact]

theorem apart_initial {initial : Nat} {seen : List Checkpoint} {index : AdaptiveIndex}
    (h : index.Sampled initial seen) :
    index.entries.Pairwise Checkpoint.Before ∧
      ∀ i, ∀ hi : i + 1 < index.entries.length,
        initial ≤ index.cadence.distance index.entries[i] index.entries[i + 1] := by
  refine ⟨h.apart.imp fun hab => hab.1, fun i hi => ?_⟩
  exact (List.pairwise_iff_getElem.mp h.apart i (i + 1) (by omega) hi (by omega)).2

/-- An index that saw every row up to `n` holds the multiples of one stride, and an index that
saw any increasing sequence holds a sample of it in order. -/
theorem adaptive_index_canonical {capacity initial : Nat} (hbound : initial < u64Bound)
    {cadence : Cadence} {index : AdaptiveIndex}
    (hnew : new capacity initial cadence = .ok index) :
    (cadence = .rows → ∀ (offset : Nat → Nat) (n : Nat), n < u64Bound → offset 0 = 0 →
      (∀ row < n, offset row < offset (row + 1)) →
      ∃ final S, index.observeAll (boundaries offset n) = .ok final ∧
        (∃ k, S = min (initial * 2 ^ k) (u64Bound - 1)) ∧
        (∀ entry, entry ∈ final.entries ↔ S ∣ entry.row ∧ entry.row ≤ n ∧
          entry.offset = offset entry.row) ∧
        final.entries.length ≤ capacity ∧
        (∀ row ≤ n, final.nearest row ∈ final.entries ∧
          (final.nearest row).row = row - row % S) ∧
        (S = initial ∨ S * (capacity - 1) ≤ 2 * n)) ∧
    (∀ seen : List Checkpoint, (∀ first ∈ seen.head?,
        first = Checkpoint.origin ∨ Checkpoint.origin.Before first) →
      seen.Pairwise Checkpoint.Before →
      ∃ final, index.observeAll seen = .ok final ∧
        final.entries.Pairwise Checkpoint.Before ∧
        final.entries.head? = some Checkpoint.origin ∧
        (∀ entry ∈ final.entries, entry ∈ Checkpoint.origin :: seen) ∧
        ∀ i, ∀ hi : i + 1 < final.entries.length,
          initial ≤ cadence.distance final.entries[i] final.entries[i + 1]) := by
  constructor
  · rintro rfl offset n hn horigin hoffset
    obtain ⟨final, hfinal, hinv⟩ := observeAll_canonical offset hnew hbound horigin hn hoffset
    refine ⟨final, final.stride, hfinal, hinv.doubled, ?_, hinv.room, ?_, hinv.coarse⟩
    · intro entry
      rw [hinv.entries, mem_multiples hinv.stride_pos]
    · intro row hrow
      refine ⟨(final.nearest_spec row).1, ?_⟩
      rw [hinv.nearest hrow]
      rfl
  · intro seen hfirst hsorted
    obtain ⟨hstart, hcadence⟩ := new_lastObserved hnew
    obtain ⟨final, hfinal, hsame⟩ := observeAll_isOk index (by rwa [hstart]) hsorted
    have hinv := (new_sampled hnew).observeAll hbound hfinal
    obtain ⟨hincreasing, hapart⟩ := apart_initial hinv
    rw [hsame, hcadence] at hapart
    exact ⟨final, hfinal, hincreasing, final.origin_first, hinv.observed, hapart⟩

/-- The witness: three entries at most, and a stride of two rows that doubles once. -/
theorem adaptive_index_canonical_three :
    ∃ index final, new 3 2 .rows = .ok index ∧
      index.observeAll (boundaries (fun row => 5 * row) 9) = .ok final ∧
      ∃ S, (∃ k, S = min (2 * 2 ^ k) (u64Bound - 1)) ∧ (final.nearest 7).row = 7 - 7 % S := by
  have hnew : new 3 2 .rows = .ok ⟨[.origin], 3, 2, .rows, .origin, rfl⟩ := rfl
  obtain ⟨final, S, hfinal, hdoubled, -, -, hnearest, -⟩ :=
    (adaptive_index_canonical (by decide) hnew).1 rfl (fun row => 5 * row) 9
      (by decide) rfl (by decide)
  exact ⟨_, final, hnew, hfinal, S, hdoubled, (hnearest 7 (by decide)).2⟩

/-- With two entries and a stride of half the `u64` range the doubling saturates, and the last
row is a multiple of the saturated stride only. -/
theorem saturated_entries {initial n : Nat} (hinitial : initial * 2 = u64Bound)
    (hn : n + 1 = u64Bound) {offset : Nat → Nat} {index : AdaptiveIndex}
    (h : index.Canonical 2 initial offset n) (k : Nat) :
    ¬ ∀ row, (∃ entry ∈ index.entries, entry.row = row) ↔ initial * 2 ^ k ∣ row ∧ row ≤ n := by
  have hlarge : 2 < u64Bound := by decide
  have hstride : index.stride = n := by
    obtain ⟨j, hj⟩ := h.doubled
    rw [← hn, Nat.add_sub_cancel] at hj
    cases j with
    | zero =>
      have hfull : index.entries.length = 2 := by
        have hquot : n / initial = 1 := by
          rw [Nat.div_eq_iff (by omega)]
          omega
        rw [h.entries, length_multiples, hj, Nat.pow_zero, Nat.mul_one,
          Nat.min_eq_left (by omega), hquot]
      have hlast := h.full hfull
      omega
    | succ j =>
      have hpow : 1 ≤ 2 ^ j := Nat.one_le_two_pow
      have htop : n + 1 ≤ initial * 2 ^ (j + 1) := by
        calc n + 1 = initial * 2 * 1 := by omega
          _ ≤ initial * 2 * 2 ^ j := Nat.mul_le_mul_left _ hpow
          _ = initial * 2 ^ (j + 1) := by rw [Nat.mul_assoc, ← Nat.pow_succ']
      omega
  intro hmultiples
  have hmem : boundary offset n ∈ index.entries := by
    rw [h.entries, mem_multiples h.stride_pos, hstride]
    exact ⟨Nat.dvd_refl _, Nat.le_refl _, rfl⟩
  have hdvd : initial ∣ n :=
    (Nat.dvd_mul_right initial (2 ^ k)).trans ((hmultiples n).mp ⟨_, hmem, rfl⟩).1
  have hnext : initial ∣ n + 1 := ⟨2, by omega⟩
  have hone : initial = 1 := Nat.dvd_one.mp ((Nat.dvd_add_right hdvd).mp hnext)
  omega

theorem doubled_stride_saturates :
    ∃ index final, new 2 (2 ^ 63) .rows = .ok index ∧
      index.observeAll (boundaries id (u64Bound - 1)) = .ok final ∧
      ¬ ∃ k, ∀ row, (∃ entry ∈ final.entries, entry.row = row) ↔
        2 ^ 63 * 2 ^ k ∣ row ∧ row ≤ u64Bound - 1 := by
  have hnew : new 2 (2 ^ 63) .rows = .ok ⟨[.origin], 2, 2 ^ 63, .rows, .origin, rfl⟩ := by
    rw [new, if_neg (by decide), if_neg (by decide)]
  obtain ⟨final, hfinal, hinv⟩ := observeAll_canonical id hnew (by decide) rfl
    (n := u64Bound - 1) (by decide) (fun row _ => Nat.lt_succ_self row)
  exact ⟨_, final, hnew, hfinal, fun ⟨k, hk⟩ =>
    saturated_entries (by decide) (by decide) hinv k hk⟩

end AdaptiveIndex

end LeanRows
