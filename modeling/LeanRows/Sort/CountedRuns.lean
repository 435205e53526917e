import LeanRows.Sort.Batches
import LeanRows.Sort.CountedMaps

/-!
# What the session counts of its runs

The session counts what the sort does with the records: the same steps, told once by the charges
and files of the session and once by the records in them. Where the files take what is written,
the scan finds the records there are and a comparison answers as they do, the session stands where
the batches and the passes have come to, in every run of it.
-/

set_option autoImplicit false

namespace LeanRows.Sort

namespace MergePass

variable {α : Type} {order : α → α → Ordering}

/-! ## The passes -/

/-- A run of the session. -/
def Tree.run (tree : Tree α) (run : Nat) : Run :=
  ⟨(tree.heads run).map fun _ => tree.next run, tree.next run, tree.stop run⟩

/-- The tree of the session. -/
def Tree.counted (mergeFanIn : Nat) (tree : Tree α) : Sort.Tree :=
  ⟨tree.leaves, (List.range (tree.leaves * 2)).map tree.nodes,
    (List.range mergeFanIn).map tree.run, tree.groupEnd, tree.stage⟩

namespace Pass

variable {t t' : Pass α}

/-- A session in the middle of this pass. -/
structure Stands (t : Pass α) (s : SortSession) : Prop where
  records : s.records = t.records
  mergeFanIn : s.mergeFanIn = t.mergeFanIn
  runWidth : s.runWidth = t.runWidth
  groupStart : s.groupStart = t.groupStart
  pages : s.pages = t.pageCount
  tree : s.tree = t.tree.counted t.mergeFanIn

/-- A session at this pass or, when there is none left, at the maps. -/
def Counts (t : Pass α) (s : SortSession) : Prop :=
  if t.merging then s.phase = .merging ∧ Stands t s
  else s.phase = .buildingInverse ∧ s.records = t.records

/-- Only runs of the session have heads. -/
def Within (t : Pass α) : Prop := ∀ run, t.mergeFanIn ≤ run → t.tree.heads run = none

theorem Sound.within (h : Sound order t) : Within t :=
  fun run hrun => h.quiet run (Nat.le_trans h.pages_le hrun)

theorem getElem?_runs (run : Nat) : (t.tree.counted t.mergeFanIn).runs[run]? =
    if run < t.mergeFanIn then some (t.tree.run run) else none := by
  simp only [Tree.counted, List.getElem?_map]
  split_ifs with hrun
  · rw [List.getElem?_range hrun, Option.map_some]
  · rw [List.getElem?_eq_none (by rw [List.length_range]; omega), Option.map_none]

theorem head_counted (h : Within t) (run : Nat) :
    ((t.tree.counted t.mergeFanIn).runs[run]?).bind Run.head =
      (t.tree.heads run).map fun _ => t.tree.next run := by
  rw [getElem?_runs]
  split_ifs with hrun
  · rfl
  · rw [h run (Nat.not_lt.mp hrun)]
    rfl

theorem node_counted {node : Nat} (h : node < t.tree.leaves * 2) :
    (t.tree.counted t.mergeFanIn).nodes.getD node none = t.tree.nodes node := by
  simp only [Tree.counted]
  rw [List.getD_eq_getElem _ _ (by simpa using h), List.getElem_map, List.getElem_range]

/-- What a comparison of the two heads at a node says: whether the left one is greater. -/
def greaterAt (order : α → α → Ordering) (node : Nat) (d : Choice) (t : Pass α) : Option Bool :=
  match t.tree.nodes (node * 2), t.tree.nodes (node * 2 + 1) with
  | some left, some right =>
    match t.tree.heads left, t.tree.heads right with
    | some a, some b => (compare order d a b t).1.map (· == .gt)
    | _, _ => none
  | _, _ => none

theorem play_counted (h : Within t) {node : Nat} (hnode : node < t.tree.leaves)
    {c : Sort.Choice} {d : Choice} (hfault : c.fault = none)
    (hgreater : c.greater = greaterAt order node d t) :
    SortSession.play node c (t.tree.counted t.mergeFanIn) =
      (play order node d t).map Prod.fst := by
  unfold SortSession.play play
  rw [node_counted (by omega), node_counted (by omega)]
  unfold greaterAt at hgreater
  cases hleft : t.tree.nodes (node * 2) with
  | none => rfl
  | some left =>
    cases hright : t.tree.nodes (node * 2 + 1) with
    | none => rfl
    | some right =>
      dsimp only
      rw [head_counted h, head_counted h, hfault]
      rw [hleft, hright] at hgreater
      dsimp only at hgreater
      cases ha : t.tree.heads left with
      | none => rfl
      | some a =>
        cases hb : t.tree.heads right with
        | none => rfl
        | some b =>
          rw [ha, hb] at hgreater
          dsimp only [Option.map_some] at hgreater ⊢
          rw [hgreater, Option.map_map]
          simp only [Except.map, Function.comp_def, beq_iff_eq]

/-! ### The matches -/

/-- The comparison of the session says what the one of the records does. -/
structure Truthful (order : α → α → Ordering) (t : Pass α) (c : Sort.Choice) (d : Choice) :
    Prop where
  fault : c.fault = none
  greater : ∀ n, node t.tree.stage = some n → c.greater = greaterAt order n d t

variable {c : Sort.Choice} {d : Choice} {s : SortSession}

theorem play_keeps {n : Nat} {winner : Option (Option Nat)}
    (h : play order n d t = .ok (winner, t')) : t' = { t with comparison := t'.comparison } := by
  unfold play at h
  split at h
  · cases h
    rfl
  · cases h
    rfl
  · split at h
    · cases h
      rfl
    · cases h

theorem Stands.withComparison (h : Stands t s) (comparison : Option (α × α)) :
    Stands { t with comparison := comparison } s :=
  ⟨h.records, h.mergeFanIn, h.runWidth, h.groupStart, h.pages, h.tree⟩

theorem Stands.setWinner (h : Stands t s) (n : Nat) (winner : Option Nat) (stage : Stage) :
    Stands (t.setWinner n winner stage) (SortSession.setWinner n winner stage s) where
  records := h.records
  mergeFanIn := h.mergeFanIn
  runWidth := h.runWidth
  groupStart := h.groupStart
  pages := h.pages
  tree := by
    simp only [SortSession.setWinner, Pass.setWinner, h.tree, Tree.counted, set_map_range]
    rfl

/-- A match that is to be played, in the session and in the pass. -/
theorem match_counted (hwithin : Within t) {n : Nat} (hnode : n < t.tree.leaves)
    (hfault : c.fault = none) (hgreater : c.greater = greaterAt order n d t) {stage : Stage}
    (h : (match play order n d t with
      | .error e => .error e
      | .ok (none, t) => .ok t
      | .ok (some winner, t) => .ok (Pass.setWinner n winner stage t) :
        Except SortError (Pass α)) = .ok t') :
    Exec.Triple (fun p => p.1.phase = .merging ∧ Stands t p.1)
      (do match ← Exec.ofExcept (SortSession.play n c (t.tree.counted t.mergeFanIn)) with
        | none => pure ()
        | some winner => Exec.modify (SortSession.setWinner n winner stage) : SortM Unit)
      (fun _ p => p.1.phase = .merging ∧ Stands t' p.1) fun _ _ => True := by
  rw [play_counted hwithin hnode hfault hgreater]
  cases hplay : play order n d t with
  | error e => exact fun _ _ => trivial
  | ok result =>
    obtain ⟨winner, u⟩ := result
    have hkeeps := play_keeps hplay
    rw [hplay] at h
    cases winner with
    | none =>
      cases h
      rw [hkeeps]
      exact fun p hp => ⟨hp.1, hp.2.withComparison _⟩
    | some winner =>
      cases h
      rw [hkeeps]
      exact fun p hp => ⟨hp.1, (hp.2.withComparison _).setWinner n winner stage⟩

/-! ### The heads -/

/-- A run whose head is read, if there is one. -/
def loadedRun (next stop : Nat) : Run := ⟨if next < stop then some next else none, next, stop⟩

theorem loadHead_session {read : Answer} {head : Option Nat} {next stop : Nat} {run : Run}
    (h : SortSession.loadHead read ⟨head, next, stop⟩ = .ok run) : run = loadedRun next stop := by
  unfold SortSession.loadHead at h
  unfold loadedRun
  split_ifs at h ⊢ with hmore
  · cases read with
    | error e => cases h
    | ok _ =>
      cases h
      rfl
  · cases h
    rfl

/-- Reading a head changes this run only. -/
theorem loadHead_run {run : Nat} (h : loadHead run t = .ok t') :
    t' = { t with pages := t'.pages, tree := { t.tree with heads := t'.tree.heads } } ∧
      t'.tree.run =
        Function.update t.tree.run run (loadedRun (t.tree.next run) (t.tree.stop run)) := by
  have hupdate : ∀ head : Option α, (head.map fun _ => t.tree.next run) =
      (if t.tree.next run < t.tree.stop run then some (t.tree.next run) else none) →
      Tree.run { t.tree with heads := Function.update t.tree.heads run head } =
        Function.update t.tree.run run (loadedRun (t.tree.next run) (t.tree.stop run)) := by
    intro head hhead
    funext other
    by_cases hother : other = run
    · subst hother
      simp only [Tree.run, Function.update_self, hhead, loadedRun]
    · simp only [Tree.run, ne_eq, hother, not_false_eq_true, Function.update_of_ne]
  unfold loadHead at h
  split_ifs at h with hmore
  · split at h
    · cases h
    · cases h
      exact ⟨rfl, hupdate _ (by rw [if_pos hmore, Option.map_some])⟩
  · cases h
    exact ⟨rfl, hupdate _ (by rw [if_neg hmore, Option.map_none])⟩

/-- A pass whose head has been written stands with the next one of its run. -/
structure Emitted (t t' : Pass α) (index : Nat) : Prop where
  held : (t.tree.heads index).isSome = true
  keeps : t' = { t with
    passFile := t'.passFile
    pages := t'.pages
    tree := { t.tree with
      nodes := Function.update t.tree.nodes (t.tree.leaves + index)
        ((t'.tree.heads index).map fun _ => index)
      heads := t'.tree.heads
      next := t'.tree.next
      stage := .replay ((t.tree.leaves + index) / 2) } }
  run : t'.tree.run = Function.update t.tree.run index
    (loadedRun (t.tree.next index + 1) (t.tree.stop index))

theorem emit_emitted {index : Nat} (h : emit index t = .ok t') : Emitted t t' index := by
  unfold emit at h
  cases hhead : t.tree.heads index with
  | none =>
    rw [hhead] at h
    cases h
  | some record =>
    rw [hhead] at h
    dsimp only at h
    split at h
    · cases h
    next u hload =>
    cases h
    obtain ⟨hkeeps, hrun⟩ := loadHead_run hload
    refine ⟨by rw [hhead, Option.isSome_some], by rw [setWinner, hkeeps], ?_⟩
    change u.tree.run = _
    rw [hrun]
    funext other
    by_cases hother : other = index
    · subst hother
      simp only [Function.update_self]
    · simp only [Tree.run, ne_eq, hother, not_false_eq_true, Function.update_of_ne]

theorem Emitted.winner {index : Nat} (h : Emitted t t' index) :
    ((loadedRun (t.tree.next index + 1) (t.tree.stop index)).head.map fun _ => index) =
      (t'.tree.heads index).map fun _ => index := by
  have hhead := congrArg (fun run : Run => run.head.map fun _ => index) (congrFun h.run index)
  rw [Function.update_self] at hhead
  rw [← hhead, Tree.run, Option.map_map]
  rfl

theorem Emitted.stands {index : Nat} (h : Emitted t t' index) (hstands : Stands t s)
    (file : Option DiskFile) (run : Run) : Stands t' { s with
      tree := { s.tree with
        runs := (s.tree.runs.set index run).set index
          (loadedRun (t.tree.next index + 1) (t.tree.stop index))
        nodes := s.tree.nodes.set (s.tree.leaves + index)
          ((loadedRun (t.tree.next index + 1) (t.tree.stop index)).head.map fun _ => index)
        stage := .replay ((s.tree.leaves + index) / 2) }
      passFile := file } where
  records := hstands.records.trans (by rw [h.keeps])
  mergeFanIn := hstands.mergeFanIn.trans (by rw [h.keeps])
  runWidth := hstands.runWidth.trans (by rw [h.keeps])
  groupStart := hstands.groupStart.trans (by rw [h.keeps])
  pages := hstands.pages.trans (by rw [h.keeps])
  tree := by
    have hfan : t'.mergeFanIn = t.mergeFanIn := by rw [h.keeps]
    have htree := congrArg tree h.keeps
    have hleaves : t'.tree.leaves = t.tree.leaves := by rw [htree]
    have hnodes : t'.tree.nodes = Function.update t.tree.nodes (t.tree.leaves + index)
        ((t'.tree.heads index).map fun _ => index) := congrArg Tree.nodes htree
    have hend : t'.tree.groupEnd = t.tree.groupEnd := by rw [htree]
    have hstage : t'.tree.stage = .replay ((t.tree.leaves + index) / 2) :=
      congrArg Tree.stage htree
    dsimp only
    rw [hfan, h.winner, hstands.tree]
    simp only [Tree.counted, set_map_range, hleaves, hend, hstage, h.run, Function.update_idem]
    rw [hnodes]

theorem emit_counted (hwithin : Within t) {index : Nat} (h : emit index t = .ok t') :
    Exec.Triple (fun p => p.1.phase = .merging ∧ Stands t p.1) (SortSession.emit index c)
      (fun _ p => p.1.phase = .merging ∧ Stands t' p.1) fun _ _ => True := by
  have hemitted := emit_emitted h
  obtain ⟨record, hhead⟩ := Option.isSome_iff_exists.mp hemitted.held
  have hindex : index < t.mergeFanIn := by
    by_contra hge
    rw [hwithin index (Nat.not_lt.mp hge)] at hhead
    cases hhead
  unfold SortSession.emit
  refine .get_bind fun s => ?_
  rintro ⟨s', r⟩ ⟨rfl, hphase, hstands⟩
  have hget : s'.tree.runs[index]? =
      some ⟨some (t.tree.next index), t.tree.next index, t.tree.stop index⟩ := by
    rw [hstands.tree, getElem?_runs, if_pos hindex, Tree.run, hhead, Option.map_some]
  rw [hget]
  let taken : SortSession := { s' with tree := { s'.tree with
    runs := s'.tree.runs.set index ⟨none, t.tree.next index, t.tree.stop index⟩ } }
  refine (Exec.Triple.modify_bind (fun p => ∃ file, p.1 = { taken with passFile := file })
    (fun _ _ hs => ⟨s'.passFile, by cases hs; rfl⟩) ?_ : Exec.Triple (fun p => p.1 = s') _ _ _)
    (s', r) rfl
  refine .bind (SortSession.onFile_keeps (fun s => ∃ file, s = { taken with passFile := file })
    (fun f s hs => ?_) _) fun _ => .ofExcept_bind (fun run hrun => .modify ?_)
      fun _ _ _ _ => trivial
  · obtain ⟨file, rfl⟩ := hs
    exact ⟨some f, rfl⟩
  · rintro _ r' ⟨file, rfl⟩
    obtain rfl := loadHead_session hrun
    exact ⟨hphase, hemitted.stands hstands file _⟩

/-- The stages of a group. -/
theorem mergeStage_counted (hwithin : Within t) (hleaves : 0 < t.tree.leaves)
    (hinner : ∀ n, node t.tree.stage = some n → n < t.tree.leaves) (htrue : Truthful order t c d)
    (h : mergeStage order d t = .ok t') :
    Exec.Triple (fun p => p.1.phase = .merging ∧ Stands t p.1) (SortSession.mergeStage c)
      (fun _ p => p.1.phase = .merging ∧ Stands t' p.1) fun _ _ => True := by
  unfold SortSession.mergeStage
  refine .get_bind fun s => ?_
  rintro p ⟨rfl, hphase, hstands⟩
  have hstage : p.1.tree.stage = t.tree.stage := by
    rw [hstands.tree]
    rfl
  unfold mergeStage at h
  rw [hstage]
  cases hcase : t.tree.stage with
  | idle =>
    rw [hcase] at h
    cases h
    exact ⟨hphase, hstands⟩
  | build n =>
    have hnode : node t.tree.stage = some n := by rw [hcase]; rfl
    rw [hcase] at h
    dsimp only
    rw [hstands.tree]
    exact match_counted hwithin (hinner n hnode) htrue.fault (htrue.greater n hnode) h p
      ⟨hphase, hstands⟩
  | replay n =>
    have hnode : node t.tree.stage = some n := by rw [hcase]; rfl
    rw [hcase] at h
    dsimp only
    rw [hstands.tree]
    exact match_counted hwithin (hinner n hnode) htrue.fault (htrue.greater n hnode) h p
      ⟨hphase, hstands⟩
  | emit =>
    rw [hcase] at h
    dsimp only at h ⊢
    rw [hstands.tree, node_counted (by omega)]
    cases hroot : t.tree.nodes 1 with
    | none =>
      rw [hroot] at h
      cases h
      have hend : p.1.tree.groupEnd = t.tree.groupEnd := by
        rw [hstands.tree]
        rfl
      refine ⟨hphase, hstands.records, hstands.mergeFanIn, hstands.runWidth, hend, hstands.pages,
        ?_⟩
      dsimp only
      rw [hstands.tree]
      rfl
    | some index =>
      rw [hroot] at h
      exact emit_counted hwithin h p ⟨hphase, hstands⟩

/-! ### The start of a group -/

theorem drop_map_range {β : Type} {f g : Nat → β} {n k : Nat} (h : ∀ i, k ≤ i → f i = g i) :
    ((List.range n).map f).drop k = ((List.range n).map g).drop k := by
  rw [← List.map_drop, ← List.map_drop]
  refine List.map_congr_left fun i hi => h i ?_
  obtain ⟨j, hj, rfl⟩ := List.mem_drop_iff_getElem.mp hi
  rw [List.getElem_range]
  omega

theorem drop_map_range_cons {β : Type} (f : Nat → β) {n k : Nat} (h : k < n) :
    ((List.range n).map f).drop k = f k :: ((List.range n).map f).drop (k + 1) := by
  rw [List.drop_eq_getElem_cons (by simpa using h), List.getElem_map, List.getElem_range]

theorem startRuns_counted {os : Answers} {mergeFanIn : Nat} (count : Nat) {run start : Nat}
    {t t' : Pass α} (hfan : run + count ≤ mergeFanIn) (h : startRuns count run start t = .ok t')
    {started : List Run × Nat} (hstarted : SortSession.startRuns t.runWidth t.records os count start
      (((List.range mergeFanIn).map t.tree.run).drop run) = .ok started) :
    (∀ k < run, t'.tree.run k = t.tree.run k) ∧
      started = (((List.range mergeFanIn).map t'.tree.run).drop run, t'.tree.groupEnd) := by
  induction count generalizing run start t started with
  | zero =>
    cases h
    cases hstarted
    exact ⟨fun _ _ => rfl, rfl⟩
  | succ count ih =>
    unfold startRuns at h
    dsimp only at h
    split at h
    · cases h
    next u hload =>
    obtain ⟨hkeeps, hrun⟩ := loadHead_run hload
    have hruns : u.tree.run = Function.update t.tree.run run
        (loadedRun start (min (start + t.runWidth) t.records)) := by
      rw [hrun]
      funext other
      by_cases hother : other = run
      · subst hother
        simp only [Function.update_self]
      · simp only [Tree.run, ne_eq, hother, not_false_eq_true, Function.update_of_ne]
    generalize hw : (if (u.tree.heads run).isSome then _ else u : Pass α) = w at h
    obtain ⟨hwrun, hwidth, hrecords⟩ : w.tree.run = u.tree.run ∧ w.runWidth = t.runWidth ∧
        w.records = t.records := by
      rw [← hw, hkeeps]
      split_ifs <;> exact ⟨rfl, rfl, rfl⟩
    have hlater : ((List.range mergeFanIn).map t.tree.run).drop (run + 1) =
        ((List.range mergeFanIn).map w.tree.run).drop (run + 1) :=
      drop_map_range fun i hi => by rw [hwrun, hruns, Function.update_of_ne (by omega)]
    rw [drop_map_range_cons _ (by omega), SortSession.startRuns] at hstarted
    split at hstarted
    · cases hstarted
    next first hfirst =>
    split at hstarted
    · cases hstarted
    next runs groupEnd hrest =>
    cases hstarted
    rw [← hwidth, ← hrecords] at h
    rw [hlater, ← hwidth, ← hrecords] at hrest
    obtain ⟨hbefore, hgroup⟩ := ih (by omega) h hrest
    cases hgroup
    refine ⟨fun k hk => ?_, ?_⟩
    · rw [hbefore k (by omega), hwrun, hruns, Function.update_of_ne (by omega)]
    · have hself : t'.tree.run run = first := by
        rw [hbefore run (Nat.lt_succ_self run), hwrun, hruns, Function.update_self,
          loadHead_session hfirst]
      rw [drop_map_range_cons t'.tree.run (show run < mergeFanIn by omega), hself]

theorem nodes_opened {pages : Nat → ReadPage α} {nodes : Nat → Option Nat} {heads : Nat → Option α}
    {next stop : Nat → Nat} (h : Started t t.pageCount pages nodes heads next stop)
    (hpages : t.pageCount ≤ t.mergeFanIn) :
    List.replicate t.tree.leaves none ++ ((List.range t.tree.leaves).map fun run =>
      if run < t.pageCount then
        (((List.range t.mergeFanIn).map (t.opened pages nodes heads next stop).tree.run)[run]?).bind
          fun r => r.head.map fun _ => run
      else none) = (List.range (t.tree.leaves * 2)).map nodes := by
  rw [Nat.mul_two, List.range_add, List.map_append, List.map_map]
  congr 1
  · refine (List.eq_replicate_iff.mpr ⟨by simp, fun node hnode => ?_⟩).symm
    obtain ⟨m, hm, rfl⟩ := List.mem_map.mp hnode
    have hlt := List.mem_range.mp hm
    exact h.empty m fun r hr => by omega
  · refine List.map_congr_left fun run hrun => ?_
    dsimp only [Function.comp]
    split_ifs with hpage
    · rw [h.leaves run hpage, List.getElem?_map, List.getElem?_range (by omega)]
      simp only [Option.map_some, Option.bind_some, Tree.run, Option.map_map]
      rfl
    · exact (h.empty _ fun r hr => by omega).symm

theorem startGroup_counted (hsound : Sound order t) (hmore : t.groupStart < t.records)
    (h : startGroup t = .ok t') :
    Exec.Triple (fun p => p.1.phase = .merging ∧ Stands t p.1) (SortSession.startGroup c)
      (fun _ p => p.1.phase = .merging ∧ Stands t' p.1) fun _ _ => True := by
  have hpages := hsound.pages_le
  have hleaves := hsound.leaves
  have hfan := hsound.fanIn
  obtain ⟨pages, nodes, heads, next, stop, hopened, hruns⟩ := startGroup_opened hsound hmore
  have hsame := h.symm.trans hopened
  rw [Except.ok.injEq] at hsame
  unfold SortSession.startGroup
  refine .get_bind fun s => ?_
  rintro p ⟨rfl, hphase, hstands⟩
  unfold startGroup at h
  dsimp only at h
  split at h
  · cases h
  next u hstart =>
  cases h
  have htree := congrArg tree hsame
  have hrun : u.tree.run = (t.opened pages nodes heads next stop).tree.run := by
    rw [← htree]
    rfl
  have hend : u.tree.groupEnd = (t.opened pages nodes heads next stop).tree.groupEnd := by
    rw [← htree]
  refine (Exec.Triple.ofExcept_bind (fun started hstarted => .modify ?_)
    (fun _ _ _ _ => trivial) : Exec.Triple (fun q => q.1 = p.1) _ _ _) p rfl
  rintro s r hs
  obtain rfl : s = p.1 := hs
  rw [hstands.tree, hstands.runWidth, hstands.records, hstands.groupStart,
    hstands.pages] at hstarted
  obtain ⟨-, hlist⟩ := startRuns_counted t.pageCount (by omega) hstart hstarted
  rw [List.drop_zero, hrun, hend] at hlist
  rw [hsame]
  refine ⟨hphase, hstands.records, hstands.mergeFanIn, hstands.runWidth, hstands.groupStart,
    hstands.pages, ?_⟩
  rw [hlist, hstands.tree, hstands.pages]
  have hnodes := nodes_opened hruns hpages
  have hmany : 1 < t.tree.leaves := by omega
  simp only [Tree.counted] at hnodes ⊢
  simp only [hnodes, hmany, if_true]
  rfl

/-! ### The next pass -/

theorem beginMaps_counted (os : Answers) (records : Nat) :
    Exec.Triple (fun p => p.1.records = records) (SortSession.beginMaps os)
      (fun _ p => p.1.phase = .buildingInverse ∧ p.1.records = records) fun _ _ => True := by
  refine .seq (fun _ p => p.1.records = records) (fun p hp => hp) fun _ => .get_bind fun s => ?_
  exact .seq (fun _ p => p.1.records = records)
    ((SortSession.inner_keeps (fun s => s.records = records) _).pre_mono fun p hp => hp.2)
    fun maps => .modify fun s r hs => ⟨rfl, hs⟩

theorem beginDiskMerge_counted (os : Answers) :
    Exec.Triple (fun p => Stands t p.1) (SortSession.beginDiskMerge os)
      (fun _ p => Counts (beginDiskMerge t) p.1) fun _ _ => True := by
  have hkeep : ∀ (f : DiskFile) (s : SortSession), Stands t s →
      Stands t { s with runFile := some f } := fun _ _ h =>
    ⟨h.records, h.mergeFanIn, h.runWidth, h.groupStart, h.pages, h.tree⟩
  refine .bind (SortSession.onFile_keeps (Stands t) hkeep _) fun _ => .get_bind fun s => ?_
  unfold beginDiskMerge Counts
  dsimp only
  refine .ite (fun hone => ?_) fun hmany => ?_
  · rintro p ⟨rfl, hstands⟩
    rw [hstands.records, hstands.runWidth] at hone
    rw [if_pos hone]
    exact (beginMaps_counted _ t.records) p hstands.records
  · rintro p ⟨rfl, hstands⟩
    rw [hstands.records, hstands.runWidth] at hmany
    rw [if_neg hmany]
    let wider : Pass α :=
      { t with pageCount := max t.pageCount (min (divCeil t.records t.runWidth) t.mergeFanIn) }
    refine (Exec.Triple.modify_bind (fun q => Stands wider q.1) ?_
      (.bind (SortSession.inner_keeps (Stands wider) _) fun file => ?_) :
      Exec.Triple (fun q => q.1 = p.1) _ _ _) p rfl
    · intro s r hs
      obtain rfl : s = p.1 := hs
      refine ⟨hstands.records, hstands.mergeFanIn, hstands.runWidth, hstands.groupStart, ?_,
        hstands.tree⟩
      dsimp only [wider]
      rw [hstands.pages, hstands.records, hstands.runWidth, hstands.mergeFanIn]
    · rintro q hq
      refine ⟨rfl, hq.records, hq.mergeFanIn, hq.runWidth, rfl, hq.pages, ?_⟩
      dsimp only
      rw [hq.tree]
      rfl

/-- The pass with its group begun. -/
def active (t : Pass α) : Pass α :=
  if t.tree.stage = .idle then (startGroup t).toOption.getD t else t

theorem mergeStage_merging (h : mergeStage order d t = .ok t') : t'.merging = t.merging := by
  have hplay : ∀ {n : Nat} {winner : Option (Option Nat)} {u : Pass α},
      play order n d t = .ok (winner, u) → u.merging = t.merging := by
    intro n winner u h
    rw [play_keeps h]
  unfold mergeStage at h
  split at h
  · split at h
    · cases h
    · next hmatch =>
      cases h
      have hu := hplay hmatch
      exact hu
    · next hmatch =>
      cases h
      have hu := hplay hmatch
      exact hu
  · split at h
    · cases h
      rfl
    · rw [(emit_emitted h).keeps]
  · split at h
    · cases h
    · next hmatch =>
      cases h
      have hu := hplay hmatch
      exact hu
    · next hmatch =>
      cases h
      have hu := hplay hmatch
      exact hu
  · cases h
    rfl

/-- A step of the session in its merging phase, and the one of the pass. -/
theorem mergeDisk_counted (hinv : Inv order t) (hmerging : t.merging = true)
    (h : mergeDisk order d t = .ok t') (htrue : Truthful order (active t) c d) :
    Exec.Triple (fun p => p.1.phase = .merging ∧ Stands t p.1) (SortSession.mergeDisk c)
      (fun _ p => Counts t' p.1) fun _ _ => True := by
  -- A stage of the tree, behind the start of its group or in the middle of it.
  have hstage : ∀ {u : Pass α}, Sound order u → Played order u → u.merging = true →
      Truthful order u c d → mergeStage order d u = .ok t' →
      Exec.Triple (fun p => p.1.phase = .merging ∧ Stands u p.1) (SortSession.mergeStage c)
        (fun _ p => Counts t' p.1) fun _ _ => True := by
    intro u hsound hplayed hu htrue h
    have hfan := hsound.fanIn
    have hleaves := hsound.leaves
    refine (mergeStage_counted hsound.within (by omega) (fun n hn => (hplayed.inner n hn).2) htrue
      h).post_mono fun _ p hp => ?_
    rw [Counts, if_pos ((mergeStage_merging h).trans hu)]
    exact hp
  unfold SortSession.mergeDisk
  refine .get_bind fun s => ?_
  rintro p ⟨rfl, hphase, hstands⟩
  have hsame : p.1.tree.stage = t.tree.stage := by
    rw [hstands.tree]
    rfl
  unfold mergeDisk at h
  unfold active at htrue
  by_cases hidle : t.tree.stage = .idle
  · rw [if_pos hidle] at h htrue
    rw [if_pos (hsame.trans hidle)]
    obtain ⟨hbetween, hquiet⟩ := hinv.idle hmerging hidle
    by_cases hend : t.groupStart = t.records
    · rw [if_pos hend] at h
      cases h
      rw [if_pos (by rw [hstands.groupStart, hstands.records]; exact hend)]
      let passed : Pass α := { t with
        runFile := t.passFile
        passFile := []
        runWidth := min (t.runWidth * t.mergeFanIn) (u64Bound - 1) }
      refine (Exec.Triple.seq (fun _ q => Stands passed q.1) ?_ fun _ =>
        beginDiskMerge_counted c.os : Exec.Triple (fun q => q.1 = p.1) _ _ _) p rfl
      rintro ⟨s, r⟩ hs
      obtain rfl : s = p.1 := hs
      refine ⟨hstands.records, hstands.mergeFanIn, ?_, hstands.groupStart, hstands.pages,
        hstands.tree⟩
      dsimp only [passed]
      rw [hstands.runWidth, hstands.mergeFanIn]
    · have hmore : t.groupStart < t.records := by
        obtain ⟨g, -, hlt⟩ | hdone := hbetween.start
        · exact hlt
        · exact absurd hdone hend
      rw [if_neg hend] at h
      rw [if_neg (by rw [hstands.groupStart, hstands.records]; exact hend)]
      obtain ⟨u, hstart, hsound, -, hplayed, -, hu, -⟩ :=
        startGroup_spec hinv.sound hbetween hquiet hmore
      rw [hstart] at h htrue
      exact (startGroup_counted hinv.sound hmore hstart).bind
        (fun _ => hstage hsound hplayed (hu.trans hmerging) htrue h) p ⟨hphase, hstands⟩
  · rw [if_neg hidle] at h htrue
    rw [if_neg fun hp => hidle (hsame.symm.trans hp)]
    exact hstage hinv.sound (hinv.group hmerging hidle).2 hmerging htrue h p ⟨hphase, hstands⟩

end Pass

/-! ## The batches -/

namespace Batching

open SortSession (nextPair takeOne)

variable {t t' : Batching α} {s : SortSession} {c : Sort.Choice} {d : Choice} {records : List α}
  {total mergeFanIn : Nat}

/-- A session at this place of its batches; `total` records are extracted. -/
structure Counts (total mergeFanIn : Nat) (t : Batching α) (s : SortSession) : Prop where
  capacity : s.batchCapacity = t.capacity
  phase : s.phase = t.phase
  batch : s.batch = t.batch.length
  merge : s.merge = t.merge
  writeAt : s.writeAt = t.writeAt
  records : s.records + t.todo.length = total
  unread : t.todo.length ≤ s.unread + if s.pending then 1 else 0
  scanned : s.scanner = false → t.todo.length = if s.pending then 1 else 0
  pending : s.pending = true → t.phase = .extracting ∧ t.batch.length ≠ t.capacity ∧ t.todo ≠ []
  fresh : s.mergeFanIn = mergeFanIn ∧ s.runWidth = t.capacity ∧ s.groupStart = 0 ∧ s.pages = 1 ∧
    s.tree = Sort.Tree.new mergeFanIn

/-- What a comparison of the two heads says: whether the left one is greater. -/
def greater (order : α → α → Ordering) (d : Choice) (t : Batching α) : Option Bool :=
  match t.batch[t.merge.left]?, t.batch[t.merge.right]? with
  | some a, some b => (compare order d a b t).1.map (· == .gt)
  | _, _ => none

/-- The scan of the source finds the records there are, and a comparison of the session says what
the one of the records does. -/
structure Truthful (order : α → α → Ordering) (t : Batching α) (c : Sort.Choice) (d : Choice) :
    Prop where
  fault : c.fault = none
  greater : c.greater = greater order d { t with merge := nextPair t.batch.length t.merge }
  found : c.event = .found → t.todo ≠ []
  finished : ∀ last, c.event = .finished last → t.todo.length = if last then 1 else 0

/-- Which of the two heads is taken, as the session decides it. -/
def taken (greater : Option Bool) (merge : Merge) : Option Bool :=
  if merge.left = merge.middle then some false
  else if merge.right = merge.stop then some true
  else greater.map fun greater => !greater

theorem take_keeps {left : Bool} (h : take left t = .ok t') :
    t' = { t with alternate := t'.alternate, merge := takeOne left t.merge } := by
  unfold take at h
  split at h <;> cases h
  rfl

theorem mergeRuns_counted (h : mergeRuns order d t = .ok t') :
    t' = { t with
      alternate := t'.alternate
      comparison := t'.comparison
      merge := (taken (greater order d t) t.merge).elim t.merge fun left =>
        takeOne left t.merge } := by
  unfold mergeRuns at h
  unfold taken
  split_ifs at h ⊢ with hleft hright
  · rw [take_keeps h]
    rfl
  · rw [take_keeps h]
    rfl
  · cases ha : t.batch[t.merge.left]? with
    | none =>
      rw [ha] at h
      cases h
    | some a =>
      cases hb : t.batch[t.merge.right]? with
      | none =>
        rw [ha, hb] at h
        cases h
      | some b =>
        have hgreater : greater order d t = (compare order d a b t).1.map (· == .gt) := by
          rw [greater, ha, hb]
        rw [ha, hb] at h
        rw [hgreater]
        dsimp only at h
        cases hanswer : (compare order d a b t).1 with
        | none =>
          rw [hanswer] at h
          cases h
          rfl
        | some answer =>
          rw [hanswer] at h
          rw [take_keeps h]
          rfl

theorem Inv.room (h : Inv order records t) (hphase : t.phase = .sortingRuns) :
    t.batch.length ≤ t.alternate.length := by
  cases h with
  | extracting phase => rw [hphase] at phase; cases phase
  | merging _ _ _ kept => rw [kept.room]; exact kept.batch_le
  | writing _ _ _ kept => rw [kept.room]; exact kept.batch_le
  | complete phase => rw [hphase] at phase; cases phase

theorem sortBatch_counted (hroom : t.batch.length ≤ t.alternate.length)
    (hphase : t.phase = .sortingRuns) (h : sortBatch order d t = .ok t')
    (htrue : Truthful order t c d) :
    Exec.Triple (fun p => Counts total mergeFanIn t p.1) (SortSession.sortBatch c)
      (fun _ p => Counts total mergeFanIn t' p.1) fun _ _ => True := by
  have hkeep : ∀ (f : DiskFile) (s : SortSession), Counts total mergeFanIn t s →
      Counts total mergeFanIn t { s with runFile := some f } := fun _ _ h => { h with }
  unfold SortSession.sortBatch
  refine .get_bind fun s => ?_
  rintro p ⟨rfl, hcounts⟩
  unfold sortBatch at h
  dsimp only at h ⊢
  by_cases hwidth : t.batch.length ≤ t.merge.width
  · rw [if_pos hwidth] at h
    rw [if_pos (by rw [hcounts.batch, hcounts.merge]; exact hwidth)]
    by_cases hmore : t.writeAt < t.batch.length
    · rw [List.getElem?_eq_getElem hmore] at h
      cases h
      rw [if_pos (by rw [hcounts.batch, hcounts.writeAt]; exact hmore)]
      refine (Exec.Triple.bind (SortSession.onFile_keeps (Counts total mergeFanIn t) hkeep _)
        fun _ => .modify fun s r hs => ?_) p hcounts
      exact { hs with writeAt := congrArg (· + 1) hs.writeAt }
    · rw [List.getElem?_eq_none (Nat.not_lt.mp hmore)] at h
      cases h
      rw [if_neg (by rw [hcounts.batch, hcounts.writeAt]; exact hmore)]
      exact { hcounts with
        phase := rfl
        batch := rfl
        pending := fun hpending => by
          have hextracting := (hcounts.pending hpending).1
          rw [hphase] at hextracting
          cases hextracting }
  rw [if_neg hwidth] at h
  rw [if_neg (by rw [hcounts.batch, hcounts.merge]; exact hwidth)]
  by_cases hstart : t.batch.length ≤ t.merge.start
  · rw [if_pos hstart] at h
    cases h
    rw [if_pos (by rw [hcounts.batch, hcounts.merge]; exact hstart)]
    have hlength : (t.alternate.take t.batch.length).length = t.batch.length := by
      rw [List.length_take, Nat.min_eq_left hroom]
    exact { hcounts with
      batch := hcounts.batch.trans hlength.symm
      merge := congrArg (fun merge : Merge =>
        { merge with width := merge.width * 2, start := 0, stop := 0, out := 0 }) hcounts.merge
      pending := fun hpending => by
        have hextracting := (hcounts.pending hpending).1
        rw [hphase] at hextracting
        cases hextracting }
  · rw [if_neg hstart] at h
    rw [if_neg (by rw [hcounts.batch, hcounts.merge]; exact hstart)]
    have hsame := mergeRuns_counted h
    have hmoved : ∀ merge : Merge, t'.merge = merge →
        Counts total mergeFanIn t' { p.1 with merge := merge } := by
      intro merge hmerge
      rw [hsame] at hmerge ⊢
      exact { hcounts with merge := hmerge.symm }
    rw [← htrue.greater] at hsame
    rw [hcounts.batch, hcounts.merge, htrue.fault]
    generalize hmerge : nextPair t.batch.length t.merge = merge at hsame ⊢
    generalize hleft : taken c.greater merge = left at hsame
    have hdecided : (if merge.left = merge.middle then some false
      else if merge.right = merge.stop then some true
      else c.greater.map fun greater => !greater) = left := hleft
    rw [hdecided]
    cases left with
    | none => exact hmoved merge (by rw [hsame]; rfl)
    | some left => exact hmoved (takeOne left merge) (by rw [hsame]; rfl)

theorem sortBatch_phase (hphase : t.phase = .sortingRuns) (h : sortBatch order d t = .ok t') :
    t'.phase ≠ .merging := by
  have hsame : t.phase ≠ .merging := by
    rw [hphase]
    exact SortPhase.noConfusion
  unfold sortBatch at h
  dsimp only at h
  split_ifs at h
  · split at h
    · cases h
      exact hsame
    · cases h
      exact SortPhase.noConfusion
  · cases h
    exact hsame
  · rw [mergeRuns_counted h]
    exact hsame

/-- Whether the step takes a record or ends a batch; otherwise it reads on. -/
def takes (c : Sort.Choice) (s : SortSession) : Bool :=
  if s.pending then c.event = .record else s.batch = s.batchCapacity ∨ s.scanner = false

/-- The session where the batches have come to, or at the passes over their runs. -/
def Arrived (total mergeFanIn : Nat) (t : Batching α) (s : SortSession) : Prop :=
  if t.phase = .merging then (Pass.start mergeFanIn t.capacity t.runFile).Counts s
  else Counts total mergeFanIn t s

theorem tree_new (mergeFanIn : Nat) : Sort.Tree.new mergeFanIn =
    (⟨nextPowerOfTwo mergeFanIn, fun _ => none, fun _ => none, fun _ => 0, fun _ => 0, 0, .idle⟩ :
      Tree α).counted mergeFanIn := by
  have hruns : ∀ run, Tree.run (⟨nextPowerOfTwo mergeFanIn, fun _ => none, fun _ => none,
    fun _ => 0, fun _ => 0, 0, .idle⟩ : Tree α) run = ⟨none, 0, 0⟩ := fun _ => rfl
  simp only [Sort.Tree.new, Tree.counted, List.map_const', List.length_range, funext hruns]

/-- A record that is found is taken. -/
theorem Counts.taken (h : Counts total mergeFanIn t s) (hpending : s.pending = true) :
    (extract t).phase ≠ .merging ∧ Counts total mergeFanIn (extract t)
      { s with batch := s.batch + 1, records := s.records + 1, pending := false } := by
  obtain ⟨hphase, hroom, hmore⟩ := h.pending hpending
  obtain ⟨record, todo, htodo⟩ := List.exists_cons_of_ne_nil hmore
  have hextract : extract t = { t with todo := todo, batch := t.batch ++ [record] } := by
    rw [extract, if_neg (by rw [not_or]; exact ⟨hroom, hmore⟩), htodo]
    rfl
  have hrecords := h.records
  have hunread := h.unread
  have hscanned := h.scanned
  rw [if_pos hpending] at hunread hscanned
  rw [htodo, List.length_cons] at hrecords hunread hscanned
  rw [hextract]
  refine ⟨by rw [hphase]; exact SortPhase.noConfusion, ?_⟩
  exact
    { capacity := h.capacity
      phase := h.phase
      batch := by rw [h.batch, List.length_append, List.length_singleton]
      merge := h.merge
      writeAt := h.writeAt
      records := by dsimp only; omega
      unread := by
        simp only [Bool.false_eq_true, if_false]
        omega
      scanned := fun hscanner => by
        have hone := hscanned hscanner
        simp only [Bool.false_eq_true, if_false]
        omega
      pending := fun hfalse => by cases hfalse
      fresh := h.fresh }

/-- The scan finds a record, which may be the last one. -/
theorem Counts.find (h : Counts total mergeFanIn t s) (hpending : ¬ s.pending = true)
    (hphase : t.phase = .extracting) (hroom : t.batch.length ≠ t.capacity) (hmore : t.todo ≠ [])
    (hpos : 0 < s.unread) {scanner : Bool} (hscanned : scanner = false → t.todo.length = 1) :
    Counts total mergeFanIn t
      { s with scanner := scanner, unread := s.unread - 1, pending := true } := by
  have hunread := h.unread
  rw [if_neg hpending] at hunread
  exact { h with
    unread := by
      simp only [if_true]
      omega
    scanned := hscanned
    pending := fun _ => ⟨hphase, hroom, hmore⟩ }

/-- Behind the last batch the session stands before its first pass. -/
theorem Counts.stands (h : Counts total mergeFanIn t s) (hkept : Kept order records t.runFile t)
    (htotal : records.length = total) (hempty : t.batch = []) :
    Pass.Stands
      { records := t.runFile.length
        mergeFanIn := mergeFanIn
        runWidth := t.capacity
        runFile := t.runFile
        passFile := []
        pageCount := 1
        pages := fun _ => ReadPage.new
        groupStart := 0
        tree := ⟨nextPowerOfTwo mergeFanIn, fun _ => none, fun _ => none, fun _ => 0, fun _ => 0,
          0, .idle⟩
        comparison := none
        merging := false } s := by
  have hrecords := h.records
  have hlength := hkept.perm.length_eq
  rw [hempty, List.nil_append, List.length_append] at hlength
  obtain ⟨hfan, hwidth, hstart, hpages, htree⟩ := h.fresh
  exact ⟨by dsimp only; omega, hfan, hwidth, hstart, hpages, htree.trans (tree_new mergeFanIn)⟩

theorem extract_counted (hphase : t.phase = .extracting) (hkept : Kept order records t.runFile t)
    (htotal : records.length = total) (htrue : Truthful order t c d) (s : SortSession) :
    Exec.Triple (fun p => p.1 = s ∧ Counts total mergeFanIn t p.1) (SortSession.extract c)
      (fun _ p => if takes c s then Arrived total mergeFanIn (extract t) p.1
        else Counts total mergeFanIn t p.1) fun _ _ => True := by
  unfold SortSession.extract
  rw [htrue.fault]
  refine .get_bind fun s' => ?_
  rintro ⟨s'', r⟩ ⟨hs', hs, hcounts⟩
  obtain rfl : s'' = s' := hs'
  obtain rfl : s'' = s := hs
  replace hcounts : Counts total mergeFanIn t s'' := hcounts
  by_cases hpending : s''.pending = true
  · rw [if_pos hpending]
    by_cases hrecord : c.event = .record
    · have htakes : takes c s'' = true := by simp [takes, hpending, hrecord]
      obtain ⟨hmore, htaken⟩ := hcounts.taken hpending
      simp only [htakes, hrecord, if_true, Exec.modify, Arrived, if_neg hmore]
      exact htaken
    · have htakes : ¬ takes c s'' = true := by simp [takes, hpending, hrecord]
      simp only [htakes, hrecord, if_false, Exec.modify]
      exact hcounts
  have hscanned := hcounts.scanned
  rw [if_neg hpending] at hscanned
  rw [if_neg hpending]
  by_cases hfull : s''.batch = s''.batchCapacity ∨ s''.scanner = false
  · have hend : t.batch.length = t.capacity ∨ t.todo = [] := by
      obtain hfull | hscanner := hfull
      · left
        rw [← hcounts.batch, ← hcounts.capacity]
        exact hfull
      · exact .inr (List.length_eq_zero_iff.mp (hscanned hscanner))
    have htakes : takes c s'' = true := by simp [takes, hpending, hfull]
    rw [if_pos hfull]
    simp only [htakes, if_true, Arrived, extract, if_pos hend]
    by_cases hempty : t.batch = []
    · rw [if_pos (by rw [hcounts.batch, hempty, List.length_nil])]
      simp only [hempty, if_true]
      exact Pass.beginDiskMerge_counted c.os (s'', r) (hcounts.stands hkept htotal hempty)
    · rw [if_neg (by
        rw [hcounts.batch]
        exact fun hzero => hempty (List.length_eq_zero_iff.mp hzero))]
      simp only [hempty, if_false, Exec.modify, reduceCtorEq]
      exact { hcounts with
        phase := rfl
        merge := rfl
        writeAt := rfl
        pending := fun h => absurd h hpending }
  · have htakes : ¬ takes c s'' = true := by simp [takes, hpending, hfull]
    rw [if_neg hfull]
    simp only [htakes]
    have hroom : t.batch.length ≠ t.capacity := fun h => hfull (.inl (by
      rw [hcounts.batch, hcounts.capacity]
      exact h))
    have hunread := hcounts.unread
    rw [if_neg hpending] at hunread
    cases hevent : c.event with
    | reading => exact hcounts
    | record => exact hcounts
    | found =>
      have hmore := htrue.found hevent
      have hpos : 0 < s''.unread := Nat.lt_of_lt_of_le (List.length_pos_of_ne_nil hmore) hunread
      simp only [Exec.modify, hpos, if_true]
      exact hcounts.find hpending hphase hroom hmore hpos fun h => absurd (.inr h) hfull
    | finished last =>
      have hleft := htrue.finished last hevent
      by_cases hlast : last = true ∧ 0 < s''.unread
      · rw [hlast.1, if_pos rfl] at hleft
        simp only [Exec.modify, hlast, and_self, if_true]
        have hmore : t.todo ≠ [] := List.ne_nil_of_length_pos (by rw [hleft]; exact Nat.one_pos)
        exact hcounts.find hpending hphase hroom hmore hlast.2 fun _ => hleft
      · simp only [Exec.modify, hlast, if_false]
        have hnone : t.todo.length = 0 := by
          cases last with
          | false => exact hleft
          | true =>
            have hunread' : ¬ 0 < s''.unread := fun h => hlast ⟨rfl, h⟩
            omega
        exact { hcounts with
          scanned := fun _ => by
            rw [if_neg hpending]
            exact hnone }

end Batching

/-! ## The run -/

/-- Where the sort is that the session counts. -/
inductive Place (α : Type) where
  | batches (t : Batching α)
  | passes (t : Pass α)

namespace Place

/-- Where the sort is behind a step of the session. -/
def next (order : α → α → Ordering) (mergeFanIn : Nat) (c : Sort.Choice) (d : Choice)
    (s : SortSession) : Place α → Place α
  | .batches t =>
    if t.phase = .extracting ∧ ¬ Batching.takes c s then .batches t
    else
      match Batching.step order d t with
      | .error _ => .batches t
      | .ok t =>
        if t.phase = .merging then .passes (Pass.start mergeFanIn t.capacity t.runFile)
        else .batches t
  | .passes t =>
    match Pass.mergeDisk order d t with
    | .error _ => .passes t
    | .ok t => .passes t

def Counts (total mergeFanIn : Nat) : Place α → SortSession → Prop
  | .batches t, s => t.Counts total mergeFanIn s
  | .passes t, s => t.Counts s

/-- A step up to the end of the passes that is not cancelled and meets the records there are. -/
def Truthful (order : α → α → Ordering) (c : Sort.Choice) (d : Choice) : Place α → Prop
  | .batches t => c.cancelled = false ∧ Batching.Truthful order t c d
  | .passes t => c.cancelled = false ∧ t.merging = true ∧ Pass.Truthful order t.active c d

def Reached (order : α → α → Ordering) (mergeFanIn : Nat) (first : Batching α) : Place α → Prop
  | .batches t => t.phase ≠ .merging ∧ Batching.Reaches order first t
  | .passes t => ∃ s, Batching.Reaches order first s ∧ s.phase = .merging ∧
      Pass.Reaches order (Pass.start mergeFanIn s.capacity s.runFile) t

/-- The session and the sort that it counts, step by step. -/
inductive Run (order : α → α → Ordering) (mergeFanIn : Nat) (first : Place α)
    (q : SortSession × SortResources) : Place α → SortSession × SortResources → Prop where
  | start : Run order mergeFanIn first q first q
  | step {c : Sort.Choice} {d : Choice} {place : Place α} {p p' : SortSession × SortResources} :
      Run order mergeFanIn first q place p → place.Truthful order c d →
        SortSession.step c p = (.ok (), p') →
          Run order mergeFanIn first q (place.next order mergeFanIn c d p.1) p'

variable {records alternate : List α} {capacity mergeFanIn : Nat} {place : Place α}
  {c : Sort.Choice} {d : Choice} {p p' : SortSession × SortResources}

theorem step_eq (hgoing : c.cancelled = false) : SortSession.step c p =
    (match p.1.phase with
      | .extracting => SortSession.extract c p
      | .sortingRuns => SortSession.sortBatch c p
      | .merging => SortSession.mergeDisk c p
      | .buildingInverse => SortSession.buildMaps c p
      | .complete => (.ok (), p)
      | .cancelled => (.ok (), p)) := by
  unfold SortSession.step
  simp only [Exec.get, Bind.bind]
  rw [hgoing]
  cases p.1.phase <;> rfl

/-- Where the batches have come to, or the passes over their runs. -/
theorem arrived {first t : Batching α} {total : Nat} {s : SortSession}
    (hreaches : Batching.Reaches order first t) (h : t.Arrived total mergeFanIn s) :
    (if t.phase = .merging then Place.passes (Pass.start mergeFanIn t.capacity t.runFile)
      else .batches t).Counts total mergeFanIn s ∧
    (if t.phase = .merging then Place.passes (Pass.start mergeFanIn t.capacity t.runFile)
      else .batches t).Reached order mergeFanIn first := by
  unfold Batching.Arrived at h
  by_cases hphase : t.phase = .merging
  · rw [if_pos hphase] at h ⊢
    exact ⟨h, t, hreaches, hphase, .start⟩
  · rw [if_neg hphase] at h ⊢
    exact ⟨h, hphase, hreaches⟩

theorem batches_step [Std.TransCmp order] {t : Batching α}
    (hinv : Batching.Inv order records t)
    (hdistinct : records.Pairwise fun a b => order a b ≠ .eq) (hphase : t.phase ≠ .merging)
    (hreaches : Batching.Reaches order (Batching.new capacity records alternate) t)
    (hcounts : t.Counts records.length mergeFanIn p.1) (htrue : Batching.Truthful order t c d)
    (hgoing : c.cancelled = false) (hstep : SortSession.step c p = (.ok (), p')) :
    ((Place.batches t).next order mergeFanIn c d p.1).Counts records.length mergeFanIn p'.1 ∧
      ((Place.batches t).next order mergeFanIn c d p.1).Reached order mergeFanIn
        (Batching.new capacity records alternate) := by
  rw [step_eq hgoing, hcounts.phase] at hstep
  obtain ⟨t', ht, -⟩ := hinv.step hdistinct d
  have hnext := hreaches.step d hphase ht
  unfold next
  dsimp only
  rw [ht]
  have hsorting : t.phase = .sortingRuns → t'.Arrived records.length mergeFanIn p'.1 := by
    intro hsorting
    rw [hsorting] at hstep
    unfold Batching.step at ht
    rw [hsorting] at ht
    have hrun := Batching.sortBatch_counted (hinv.room hsorting) hsorting ht htrue p hcounts
    dsimp only at hstep
    rw [hstep] at hrun
    rw [Batching.Arrived, if_neg (Batching.sortBatch_phase hsorting ht)]
    exact hrun
  cases hinv with
  | extracting phase quiet kept =>
    have hrun := Batching.extract_counted phase kept rfl htrue p.1 p ⟨rfl, hcounts⟩
    rw [phase] at hstep
    dsimp only at hstep
    rw [hstep] at hrun
    unfold Batching.step at ht
    rw [phase] at ht
    cases ht
    by_cases htakes : Batching.takes c p.1 = true
    · simp only [htakes, if_true] at hrun
      rw [if_neg fun h => h.2 htakes]
      exact arrived hnext hrun
    · simp only [htakes] at hrun
      rw [if_pos ⟨phase, htakes⟩]
      exact ⟨hrun, hphase, hreaches⟩
  | merging _ phase =>
    rw [if_neg (by rw [phase]; exact fun h => SortPhase.noConfusion h.1)]
    exact arrived hnext (hsorting phase)
  | writing _ phase =>
    rw [if_neg (by rw [phase]; exact fun h => SortPhase.noConfusion h.1)]
    exact arrived hnext (hsorting phase)
  | complete phase => exact absurd phase hphase

theorem passes_step [Std.TransCmp order] {t : Pass α} (hinv : Pass.Inv order t)
    {first : Batching α} (hreached : (Place.passes t).Reached order mergeFanIn first)
    (hcounts : t.Counts p.1) (hmerging : t.merging = true)
    (htrue : Pass.Truthful order t.active c d) (hgoing : c.cancelled = false)
    (hstep : SortSession.step c p = (.ok (), p')) :
    ((Place.passes t).next order mergeFanIn c d p.1).Counts records.length mergeFanIn p'.1 ∧
      ((Place.passes t).next order mergeFanIn c d p.1).Reached order mergeFanIn first := by
  unfold Pass.Counts at hcounts
  rw [if_pos hmerging] at hcounts
  rw [step_eq hgoing, hcounts.1] at hstep
  obtain ⟨t', ht, -⟩ := hinv.step hmerging d
  have hrun := Pass.mergeDisk_counted hinv hmerging ht htrue p hcounts
  dsimp only at hstep
  rw [hstep] at hrun
  obtain ⟨s, hs, hphase, hreaches⟩ := hreached
  unfold next
  dsimp only
  rw [ht]
  exact ⟨hrun, s, hs, hphase, hreaches.step d hmerging ht⟩

/-- A session before its first step, and the batches before their first record. -/
theorem new_counts {rows stepBytes owner : Nat} {os : Answers} {r r' : SortResources}
    {s : SortSession}
    (h : SortSession.new rows capacity mergeFanIn stepBytes owner os r = (.ok s, r'))
    (hrows : records.length ≤ rows) :
    (0 < capacity ∧ 2 ≤ mergeFanIn) ∧
      (Batching.new capacity records alternate).Counts records.length mergeFanIn s := by
  unfold SortSession.new at h
  split_ifs at h with hconfig
  · cases h
  · rw [not_or, not_or] at hconfig
    obtain ⟨fixedMemory, mid, -, h⟩ := Exec.ok_of_bind h
    dsimp only at h
    split at h
    · cases h
    next mergeMemory runFile r'' hopened =>
    cases h
    refine ⟨⟨Nat.pos_of_ne_zero hconfig.1, Nat.not_lt.mp hconfig.2.1⟩, ?_⟩
    exact
      { capacity := rfl
        phase := rfl
        batch := rfl
        merge := rfl
        writeAt := rfl
        records := Nat.zero_add _
        unread := hrows
        scanned := fun h => by cases h
        pending := fun h => by cases h
        fresh := ⟨rfl, rfl, rfl, rfl, rfl⟩ }

/-- The sort that a session counts is one of the records: in every run of the session in which the
files take what is written, the scan finds the records and the comparisons answer as they do, the
session stands where the sort of the records has come to, up to the end of the passes. -/
theorem Run.counts [Std.TransCmp order] {rows stepBytes owner : Nat} {os : Answers}
    {r r' : SortResources} {s : SortSession}
    (hnew : SortSession.new rows capacity mergeFanIn stepBytes owner os r = (.ok s, r'))
    (hrows : records.length ≤ rows) (hroom : alternate.length = capacity)
    (hbound : records.length < u64Bound)
    (hdistinct : records.Pairwise fun a b => order a b ≠ .eq)
    (h : Run order mergeFanIn (.batches (Batching.new capacity records alternate)) (s, r')
      place p) :
    place.Counts records.length mergeFanIn p.1 ∧
      place.Reached order mergeFanIn (Batching.new capacity records alternate) := by
  obtain ⟨⟨hcapacity, hfan⟩, hcounts⟩ : (0 < capacity ∧ 2 ≤ mergeFanIn) ∧
      (Batching.new capacity records alternate).Counts records.length mergeFanIn s :=
    new_counts hnew hrows
  have hfirst : Batching.Inv order records (Batching.new capacity records alternate) :=
    Batching.new_inv hcapacity hroom
  induction h with
  | start => exact ⟨hcounts, SortPhase.noConfusion, .start⟩
  | @step c d place p p' hrun htrue hstep ih =>
    obtain ⟨hplace, hreached⟩ := ih
    cases place with
    | batches t =>
      exact batches_step (hreached.2.inv hfirst hdistinct) hdistinct hreached.1 hreached.2 hplace
        htrue.2 htrue.1 hstep
    | passes t =>
      obtain ⟨b, hb, hphase, ht⟩ := hreached
      obtain ⟨hwidth, hsorted, hperm⟩ := hb.runs hcapacity hroom hdistinct hphase
      have hdistinct' : b.runFile.Pairwise fun a b => order a b ≠ .eq :=
        (hperm.pairwise_iff fun {x y} hxy heq => hxy (Std.OrientedCmp.eq_comm.mp heq)).mpr hdistinct
      have hinv := ht.inv (Pass.start_inv hfan (by rw [hwidth]; exact hcapacity)
        (by rw [hperm.length_eq]; exact hbound) hdistinct' hsorted)
      exact passes_step hinv ⟨b, hb, hphase, ht⟩ hplace htrue.2.1 htrue.2.2 htrue.1 hstep

end Place

end MergePass

end LeanRows.Sort
