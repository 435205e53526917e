import LeanRows.Worker.Wakeup

/-!
# What is searched for

The searches that a run asks for, and their serials. A serial is drawn and posted in one call, so
the serials of the searches go round through the numbers of 64 bits but for zero.
-/

namespace LeanRows.Worker

set_option autoImplicit false

structure Search where
  serial : Nat
  needle : List Byte
  mode : LiteralMatchMode
deriving DecidableEq

/-- The search that an access asks for. -/
def UiOp.search (ui : Ui) : UiOp → Option Search
  | .postStart _ needle mode => some ⟨ui.querySerial, needle, mode⟩
  | _ => none

def UiMove.search {W : Type} (m : UiMove) (s : System W) : Option Search :=
  match m with
  | .step => s.ui.remaining.head?.bind (UiOp.search s.ui)
  | .enter _ | .otherTab => none

/-- The serial of a search, when so many have been asked for before it. -/
def querySerialAt (i : Nat) : Nat := i % (u64Bound - 1) + 1

/-- The serial that is drawn behind another one. -/
def serialBehind (serial : Nat) : Nat :=
  if (serial + 1) % u64Bound = 0 then 1 else (serial + 1) % u64Bound

theorem serialBehind_at (i : Nat) : serialBehind (querySerialAt i) = querySerialAt (i + 1) := by
  unfold serialBehind querySerialAt u64Bound
  split <;> omega

/-- As long as there are numbers left, no serial comes twice. -/
theorem querySerialAt_inj {i j : Nat} (hi : i < u64Bound - 1) (hj : j < u64Bound - 1)
    (h : querySerialAt i = querySerialAt j) : i = j := by
  unfold querySerialAt at h
  rw [Nat.mod_eq_of_lt hi, Nat.mod_eq_of_lt hj] at h
  omega

/-! ## The worker draws no serial -/

section Worker
variable {W X Q Z : Type} (services : Services W X Q Z)

/-- The thread of the user interface and the serials of queries are left alone. -/
def Apart (s s' : System W) : Prop :=
  s'.ui = s.ui ∧ s'.shared.querySequence = s.shared.querySequence

theorem Quiet.apart {s s' : System W} (h : Quiet s s') : Apart s s' := ⟨h.1, h.2.2.1⟩

variable {services}

theorem keeps_apart {α : Type} {p : WorkerM W α} (h : Prog.Keeps Quiet p) : Prog.Keeps Apart p :=
  h.mono fun _ _ => Quiet.apart

theorem serve_apart (active : Option (ActiveDocument W X Q Z))
    {f : ActiveDocument W X Q Z → WorkerM W (Bool × ActiveDocument W X Q Z)}
    (hf : ∀ document, Prog.Keeps Quiet (f document)) : Prog.Keeps Apart (serve active f) := by
  cases active with
  | none => exact .pure _
  | some document => exact keeps_apart ((hf document).map goOn)

theorem advance_apart (document : ActiveDocument W X Q Z) :
    Prog.Keeps Apart (advance services document) := by
  refine keeps_apart (.bind ?_ fun document => ?_)
  · unfold continueSort
    split
    · exact advanceSort_quiet services document _
    · exact .pure _
  · split
    · exact (advanceQueryOnce_quiet services document).map goOn
    · split
      · exact .pure _
      · exact (scanOnce_quiet services document).map goOn

theorem servePass_apart (active : Option (ActiveDocument W X Q Z)) :
    Prog.Keeps Apart (servePass services active) := by
  refine .bind (.atomic fun _ => ⟨rfl, rfl⟩) fun _ => .bind (.atomic fun _ => ⟨rfl, rfl⟩)
    fun opened => ?_
  cases opened with
  | some command =>
    exact .bind (keeps_apart (replaceDocument_quiet services command)) fun r => .pure _
  | none =>
  refine .bind (.atomic fun _ => ⟨rfl, rfl⟩) fun viewport => ?_
  cases viewport with
  | some request =>
    exact serve_apart active fun document => applyViewportRequest_quiet services document request
  | none =>
  refine .bind (.atomic fun _ => ⟨rfl, rfl⟩) fun query => ?_
  cases query with
  | some command =>
    exact serve_apart active fun document => applyQueryCommand_quiet services document command
  | none =>
  refine .bind (.atomic fun _ => ⟨rfl, rfl⟩) fun sort => ?_
  cases sort with
  | some command =>
    exact serve_apart active fun document =>
      .bind (startSort_quiet services document command) fun document => .pure _
  | none =>
    cases active with
    | none => exact .pure _
    | some document => exact advance_apart document

theorem runWorker_apart : (runWorker services).Keeps Apart where
  refl _ := ⟨rfl, rfl⟩
  pass := servePass_apart
  wake s stays s' h := by
    unfold runWorker at h
    dsimp only at h
    split at h
    · cases h
      exact ⟨rfl, rfl⟩
    · split at h <;> cases h
      exact ⟨rfl, rfl⟩

end Worker

/-! ## Drawing and posting -/

/-- The serial of the search that the call asks for has been drawn. -/
def Drawn (remaining : List UiOp) : Prop :=
  .nextQuery ∉ remaining ∧ ∃ documentSerial needle mode,
    .postStart documentSerial needle mode ∈ remaining

theorem not_drawn_nil : ¬ Drawn [] := by
  rintro ⟨-, documentSerial, needle, mode, h⟩
  cases h

theorem not_drawn_ops (call : UiCall) : ¬ Drawn call.ops := by
  rintro ⟨hnext, documentSerial, needle, mode, hpost⟩
  cases call <;> simp_all [UiCall.ops, UiCall.submitPathSheetOps, UiCall.requestViewportOps,
    UiCall.requestSortOps, UiCall.requestSourceRowOps, UiCall.startQueryOps,
    UiCall.navigateQueryOps, UiCall.pollOps, UiCall.dropOps]

theorem drawn_cons {op : UiOp} {rest : List UiOp} (hnext : op ≠ .nextQuery)
    (hpost : ∀ documentSerial needle mode, op ≠ .postStart documentSerial needle mode) :
    Drawn (op :: rest) ↔ Drawn rest := by
  unfold Drawn
  constructor
  · rintro ⟨hnot, documentSerial, needle, mode, hmem⟩
    refine ⟨fun h => hnot (List.mem_cons_of_mem op h), documentSerial, needle, mode, ?_⟩
    exact (List.mem_cons.mp hmem).resolve_left fun heq => hpost _ _ _ heq.symm
  · rintro ⟨hnot, documentSerial, needle, mode, hmem⟩
    refine ⟨fun h => ?_, documentSerial, needle, mode, List.mem_cons_of_mem op hmem⟩
    exact (List.mem_cons.mp h).elim (fun heq => hnext heq.symm) hnot

/-- The call of the post is the only one that draws, right behind its guards. -/
theorem startQuery_of_post {call : UiCall} {rest : List UiOp} (h : rest <:+ call.ops)
    {documentSerial : Nat} {needle : List Byte} {mode : LiteralMatchMode}
    (hpost : .postStart documentSerial needle mode ∈ rest) :
    ∃ documentSerial needle caseSensitive,
      call = .startQuery documentSerial needle caseSensitive := by
  have hmem := h.subset hpost
  cases call with
  | startQuery documentSerial needle caseSensitive => exact ⟨_, _, _, rfl⟩
  | _ => simp [UiCall.ops, UiCall.submitPathSheetOps, UiCall.requestViewportOps,
      UiCall.requestSortOps, UiCall.requestSourceRowOps, UiCall.navigateQueryOps, UiCall.pollOps,
      UiCall.dropOps] at hmem

theorem drawn_of_next {call : UiCall} {rest : List UiOp} (h : .nextQuery :: rest <:+ call.ops) :
    Drawn rest := by
  unfold Drawn
  cases call <;> simp_all [UiCall.ops, UiCall.submitPathSheetOps, UiCall.requestViewportOps,
    UiCall.requestSortOps, UiCall.requestSourceRowOps, UiCall.startQueryOps,
    UiCall.navigateQueryOps, UiCall.pollOps, UiCall.dropOps, List.suffix_cons_iff]

/-- Between drawing and posting nothing can end the call. -/
theorem drawn_front {call : UiCall} {op : UiOp} {rest : List UiOp} (h : op :: rest <:+ call.ops)
    (hdrawn : Drawn (op :: rest)) : op = .cancelQuery ∨ op = .storeLatestQuery ∨
      op = .takeEvents ∨ ∃ documentSerial needle mode,
        op = .postStart documentSerial needle mode ∧ rest = [.signal] := by
  obtain ⟨hnot, documentSerial, needle, mode, hpost⟩ := hdrawn
  obtain ⟨documentSerial, needle, caseSensitive, rfl⟩ := startQuery_of_post h hpost
  simp only [UiCall.ops, UiCall.startQueryOps, List.suffix_cons_iff, List.cons.injEq] at h
  rcases h with ⟨rfl, rfl⟩ | ⟨rfl, rfl⟩ | ⟨rfl, rfl⟩ | ⟨rfl, rfl⟩ | ⟨rfl, rfl⟩ | ⟨rfl, rfl⟩ |
    ⟨rfl, rfl⟩ | ⟨rfl, rfl⟩ | h
  all_goals simp_all

section Runs
variable {W X Q Z : Type} {services : Services W X Q Z} {s : System W}

/-- How far a call has got of which `remaining` is left, when so many searches have been asked
for. -/
structure Drawing (n : Nat) (remaining : List UiOp) (s : System W) : Prop where
  suffix : remaining <:+ s.ui.call.ops
  drawn : Drawn remaining → s.ui.querySerial = querySerialAt n ∧
    s.shared.querySequence = querySerialAt n
  undrawn : ¬ Drawn remaining → serialBehind s.shared.querySequence = querySerialAt n

theorem UiOp.run_apart (s : System W) {op : UiOp} (h : op ≠ .nextQuery) :
    (op.run s).ui.querySerial = s.ui.querySerial ∧
      (op.run s).shared.querySequence = s.shared.querySequence := by
  cases op with
  | nextQuery => exact absurd rfl h
  | guardLatest | guardActive | guardLatestQuery | nextSort | pollTake =>
    unfold run
    dsimp only
    split <;> exact ⟨rfl, rfl⟩
  | pollJudge =>
    unfold run
    dsimp only
    split
    · exact ⟨rfl, rfl⟩
    · split <;> exact ⟨rfl, rfl⟩
  | _ => exact ⟨rfl, rfl⟩

theorem UiOp.run_remaining_cases (s : System W) {op : UiOp} (h : op ≠ .nextQuery) :
    (op.run s).ui.remaining = s.ui.remaining ∨ (op.run s).ui.remaining = [] ∨
      (op.run s).ui.remaining = UiCall.poll.ops ∨
        (op.run s).ui.remaining = .nextSort :: s.ui.remaining := by
  cases op with
  | nextQuery => exact absurd rfl h
  | guardLatest | guardActive | guardLatestQuery =>
    unfold run
    dsimp only
    split
    · exact .inl rfl
    · exact .inr (.inl rfl)
  | nextSort =>
    unfold run
    dsimp only
    split
    · exact .inr (.inr (.inr rfl))
    · exact .inl rfl
  | pollTake =>
    unfold run
    dsimp only
    split
    · exact .inr (.inl rfl)
    · exact .inl rfl
  | pollJudge =>
    unfold run
    dsimp only
    split
    · exact .inl rfl
    · split
      · exact .inl rfl
      · exact .inr (.inr (.inl rfl))
  | _ => exact .inl rfl

section Access
variable {n : Nat} {rest : List UiOp} (hrest : s.ui.remaining = rest)
include hrest

/-- An access that neither draws nor posts. -/
theorem Drawing.other {op : UiOp} (h : Drawing n (op :: rest) s) (hnext : op ≠ .nextQuery)
    (hpost : ∀ documentSerial needle mode, op ≠ .postStart documentSerial needle mode) :
    Drawing n (op.run s).ui.remaining (op.run s) := by
  have hdrawn := h.drawn
  have hundrawn := h.undrawn
  rw [drawn_cons hnext hpost] at hdrawn hundrawn
  obtain ⟨hserial, hsequence⟩ := UiOp.run_apart s hnext
  have hcases := UiOp.run_remaining_cases s hnext
  rw [hrest] at hcases
  refine ⟨UiOp.run_inCall h.suffix hrest, fun hnow => ?_, fun hnow => ?_⟩
  · rw [hserial, hsequence]
    rcases hcases with heq | heq | heq | heq <;> rw [heq] at hnow
    · exact hdrawn hnow
    · exact absurd hnow not_drawn_nil
    · exact absurd hnow (not_drawn_ops .poll)
    · exact hdrawn ((drawn_cons (by simp) (by simp)).mp hnow)
  · rw [hsequence]
    refine hundrawn fun hbefore => hnow ?_
    rcases drawn_front h.suffix ((drawn_cons hnext hpost).mpr hbefore) with rfl | rfl | rfl |
      ⟨documentSerial, needle, mode, heq, -⟩
    · exact hrest ▸ hbefore
    · exact hrest ▸ hbefore
    · exact hrest ▸ hbefore
    · exact absurd heq (hpost _ _ _)

theorem Drawing.draws (h : Drawing n (.nextQuery :: rest) s) :
    Drawing n (UiOp.nextQuery.run s).ui.remaining (UiOp.nextQuery.run s) := by
  have hbehind : serialBehind s.shared.querySequence = querySerialAt n :=
    h.undrawn fun hdrawn => hdrawn.1 List.mem_cons_self
  have hdrawn : Drawn s.ui.remaining := hrest ▸ drawn_of_next h.suffix
  unfold serialBehind at hbehind
  refine ⟨UiOp.run_inCall h.suffix hrest, ?_, ?_⟩
  all_goals
    unfold UiOp.run
    dsimp only
    split
  · exact fun hagain => absurd List.mem_cons_self hagain.1
  · rename_i hnonzero
    rw [if_neg hnonzero] at hbehind
    exact fun _ => ⟨hbehind, hbehind⟩
  · rename_i hzero
    rw [if_pos hzero] at hbehind
    dsimp only
    rw [hzero, ← hbehind]
    exact fun _ => rfl
  · exact fun hnot => absurd hdrawn hnot

theorem Drawing.posts {documentSerial : Nat} {needle : List Byte} {mode : LiteralMatchMode}
    (h : Drawing n (.postStart documentSerial needle mode :: rest) s) :
    s.ui.querySerial = querySerialAt n ∧
      Drawing (n + 1) ((UiOp.postStart documentSerial needle mode).run s).ui.remaining
        ((UiOp.postStart documentSerial needle mode).run s) := by
  have hposts : (UiOp.postStart documentSerial needle mode).Posts := trivial
  have hlast := hposts.rest h.suffix
  obtain ⟨hserial, hsequence⟩ := h.drawn
    ⟨by simp [hlast], documentSerial, needle, mode, List.mem_cons_self⟩
  refine ⟨hserial, UiOp.run_inCall h.suffix hrest, fun hdrawn => ?_, fun _ => ?_⟩
  · obtain ⟨-, documentSerial', needle', mode', hmem⟩ := hdrawn
    change UiOp.postStart documentSerial' needle' mode' ∈ s.ui.remaining at hmem
    rw [hrest, hlast] at hmem
    simp at hmem
  · change serialBehind s.shared.querySequence = _
    rw [hsequence, serialBehind_at]

end Access

/-- What has been asked for, and how far the next search has got. -/
def Counted (seen : List Search) (s : System W) : Prop :=
  seen.map Search.serial = (List.range seen.length).map querySerialAt ∧
    Drawing seen.length s.ui.remaining s

theorem UiMove.run_counted (m : UiMove) {seen : List Search} (h : Counted seen s) :
    Counted (seen ++ (m.search s).toList) (m.run s) := by
  obtain ⟨hserials, hdrawing⟩ := h
  cases m with
  | enter call =>
    rw [show UiMove.search (.enter call) s = none from rfl, Option.toList_none, List.append_nil]
    refine ⟨hserials, ?_⟩
    unfold UiMove.run
    dsimp only
    cases hremaining : s.ui.remaining with
    | cons op rest => exact hdrawing
    | nil =>
      rw [hremaining] at hdrawing
      dsimp only
      split_ifs
      · rwa [hremaining]
      · exact ⟨List.suffix_refl _, fun hdrawn => absurd hdrawn (not_drawn_ops call),
          fun _ => hdrawing.undrawn not_drawn_nil⟩
  | otherTab =>
    rw [show UiMove.search .otherTab s = none from rfl, Option.toList_none, List.append_nil]
    exact ⟨hserials, hdrawing.suffix, hdrawing.drawn, hdrawing.undrawn⟩
  | step =>
    unfold UiMove.search UiMove.run
    dsimp only
    cases hremaining : s.ui.remaining with
    | nil =>
      rw [List.head?_nil, Option.bind_none, Option.toList_none, List.append_nil]
      exact ⟨hserials, hdrawing⟩
    | cons op rest =>
      rw [List.head?_cons, Option.bind_some]
      dsimp only
      rw [hremaining] at hdrawing
      have hfront : Drawing seen.length (op :: rest)
          { s with ui := { s.ui with remaining := rest } } :=
        ⟨hdrawing.suffix, hdrawing.drawn, hdrawing.undrawn⟩
      have hrest : { s with ui := { s.ui with remaining := rest } }.ui.remaining = rest := rfl
      by_cases hpost : ∃ documentSerial needle mode, op = .postStart documentSerial needle mode
      · obtain ⟨documentSerial, needle, mode, rfl⟩ := hpost
        obtain ⟨hserial, hnext⟩ := Drawing.posts hrest hfront
        have hserial' : s.ui.querySerial = querySerialAt seen.length := hserial
        refine ⟨?_, ?_⟩
        · simp only [UiOp.search, Option.toList_some, List.map_append, List.map_cons, List.map_nil,
            List.length_append, List.length_cons, List.length_nil, Nat.zero_add, List.range_succ,
            hserials, hserial']
        · simp only [UiOp.search, Option.toList_some, List.length_append, List.length_cons,
            List.length_nil, Nat.zero_add]
          exact hnext
      · have hnone : op.search s.ui = none := by
          cases op with
          | postStart documentSerial needle mode => exact absurd ⟨_, _, _, rfl⟩ hpost
          | _ => rfl
        rw [hnone, Option.toList_none, List.append_nil]
        refine ⟨hserials, ?_⟩
        by_cases hnext : op = .nextQuery
        · subst hnext
          exact Drawing.draws hrest hfront
        · exact Drawing.other hrest hfront hnext fun documentSerial needle mode heq =>
            hpost ⟨_, _, _, heq⟩

theorem Counted.apart {seen : List Search} {s s' : System W} (hapart : Apart s s')
    (h : Counted seen s) : Counted seen s' := by
  obtain ⟨hui, hsequence⟩ := hapart
  refine ⟨h.1, ?_⟩
  rw [hui]
  refine ⟨?_, ?_, ?_⟩
  · rw [hui]
    exact h.2.suffix
  · rw [hui, hsequence]
    exact h.2.drawn
  · rw [hsequence]
    exact h.2.undrawn

/-- The searches that a run asks for, in its order. -/
def searches (services : Services W X Q Z) (world : W)
    (moves : List (Server.Move UiMove Choice)) : List Search :=
  (runWorker services).observed callers UiMove.search moves ⟨.new world, .asleep none⟩

/-- The serials go round: that of the first search is 1. -/
theorem searches_serial (services : Services W X Q Z) (world : W)
    (moves : List (Server.Move UiMove Choice)) :
    (searches services world moves).map Search.serial =
      (List.range (searches services world moves).length).map querySerialAt := by
  have hstart : Counted [] (System.new world) :=
    ⟨rfl, List.nil_suffix, fun h => absurd h not_drawn_nil, fun _ => rfl⟩
  have hthread : (Config.mk (System.new world) (.asleep none) : Config (System W) Choice
      (Option (ActiveDocument W X Q Z))).thread.Keeps Apart := trivial
  have hother : ∀ (m : UiMove) (s : System W) (seen : List Search), callers.allowed m s →
      Counted seen s → Counted (seen ++ (m.search s).toList) (callers.move m s) :=
    fun m s seen _ h => m.run_counted h
  exact (runWorker_apart.observed hother (fun _ _ _ => Counted.apart) moves hthread
    (callers_allow moves _) hstart).1

end Runs

end LeanRows.Worker
