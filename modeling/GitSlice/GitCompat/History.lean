import Mathlib.Data.Set.Finite.Lemmas
import GitSlice.GitCompat.Projection

/-! # The projection follows the native history
`projection_follows_history`: however the native history is cut into update runs, and wherever a run
is interrupted, the files of the projection are those of the slice at the native commit it is at,
and it has made a Git commit for exactly the native commits that change them. -/

namespace GitSlice

open List

/-- What the slice shows of a tree at a path: the projectable files under an included prefix. -/
def projectedAt (prefixes : List Path) (tree : Node) (p : Path) : Option ProjectedFile :=
  if projectablePath p ∧ inAnyPrefix prefixes p then (tree.fileAt p).map FileEntry.projected else none

/-- `changed_paths` covers every path whose file differs, by itself or by a path above it. -/
def ChangesCovered (before after : Node) (changed : List Path) : Prop :=
  ∀ p, before.fileAt p ≠ after.fileAt p → ∃ c ∈ changed, c <+: p

/-! ## The targets -/

variable {changed : List Path} {t : Path} {prefixes : List Path}
theorem mem_targetSet :
    t ∈ targetSet changed prefixes ↔ ∃ p ∈ changed, ∃ base ∈ prefixes,
      (base <+: p ∧ t = p) ∨ (¬ base <+: p ∧ p <+: base ∧ t = base) := by
  simp only [targetSet, mem_flatMap, mem_filterMap]
  refine exists_congr fun p => and_congr_right fun _ => exists_congr fun base =>
    and_congr_right fun _ => ?_
  by_cases hin : base <+: p
  · simp [hin, eq_comm (a := t)]
  · by_cases habove : p <+: base
    · simp [hin, habove, eq_comm (a := t)]
    · simp [hin, habove]

theorem mem_projectionTargets :
    t ∈ projectionTargets changed prefixes ↔ t ∈ targetSet changed prefixes ∧
      ∀ other ∈ targetSet changed prefixes, other <+: t → other = t := by
  rw [projectionTargets, (perm_insertionSort _ _).mem_iff, mem_filter, mem_dedup]
  refine and_congr_right fun _ => ?_
  simp only [Bool.not_eq_true', any_eq_false, mem_dedup, Bool.and_eq_true,
    decide_eq_true_eq, contains_iff, not_and]
  exact forall_congr' fun other => forall_congr' fun _ => not_imp_not

theorem mem_changed_of_mem_projectionTargets (hin : ∀ p ∈ changed, inAnyPrefix prefixes p = true)
    (ht : t ∈ projectionTargets changed prefixes) : t ∈ changed := by
  obtain ⟨hmem, hleast⟩ := mem_projectionTargets.mp ht
  obtain ⟨p, hp, base, -, ⟨-, rfl⟩ | ⟨-, hle, rfl⟩⟩ := mem_targetSet.mp hmem
  · exact hp
  · -- the changed path is a target itself, above this one
    obtain ⟨base', hbase', hle'⟩ := inAnyPrefix_iff.mp (hin p hp)
    rwa [← hleast p (mem_targetSet.mpr ⟨p, hp, base', hbase', .inl ⟨hle', rfl⟩⟩) hle]

theorem exists_projectionTarget (t : Path)
    (ht : t ∈ targetSet changed prefixes) :
    ∃ t' ∈ projectionTargets changed prefixes, t' <+: t := by
  -- the shortest target above `t` is kept
  obtain ⟨t', ⟨ht', hle⟩, hmin⟩ := Set.exists_min_image
    {other | other ∈ targetSet changed prefixes ∧ other <+: t} length
    ((finite_toSet _).subset fun _ h => h.1) ⟨t, ht, prefix_refl t⟩
  refine ⟨t', mem_projectionTargets.mpr ⟨ht', fun other hother hle' => ?_⟩, hle⟩
  exact hle'.eq_of_length_le (hmin other ⟨hother, hle'.trans hle⟩)

theorem projectionTarget_cases (ht : t ∈ projectionTargets changed prefixes) :
    (∃ base ∈ prefixes, base <+: t) ∧ (t ∈ changed ∨ t ∈ prefixes) := by
  obtain ⟨p, hp, base, hbase, ⟨hin, rfl⟩ | ⟨-, -, rfl⟩⟩ :=
    mem_targetSet.mp (mem_projectionTargets.mp ht).1
  · exact ⟨⟨base, hbase, hin⟩, .inl hp⟩
  · exact ⟨⟨t, hbase, prefix_refl t⟩, .inr hbase⟩

theorem exists_target_above {c base p : Path} (hc : c ∈ changed)
    (hcp : c <+: p) (hbase : base ∈ prefixes) (hbp : base <+: p) :
    ∃ t ∈ projectionTargets changed prefixes, t <+: p := by
  by_cases hin : base <+: c
  · obtain ⟨t, ht, hle⟩ := exists_projectionTarget c
      (mem_targetSet.mpr ⟨c, hc, base, hbase, .inl ⟨hin, rfl⟩⟩)
    exact ⟨t, ht, hle.trans hcp⟩
  · have hor := prefix_or_prefix_of_prefix hcp hbp
    have habove : c <+: base := hor.resolve_right hin
    obtain ⟨t, ht, hle⟩ := exists_projectionTarget base
      (mem_targetSet.mpr ⟨c, hc, base, hbase, .inr ⟨hin, habove, rfl⟩⟩)
    exact ⟨t, ht, hle.trans hbp⟩

/-! ## One commit -/

/-- A tree as the tree store builds it: proper names in order. -/
abbrev Node.Proper (n : Node) : Prop := n.WellFormed (fun a => validSegment a = true) fun _ => True

/-- The changed paths and prefixes the projector reads as they are written: a changed path is not
the root, and the tree store cuts no white space from the end of one. -/
def Legible (prefixes : List Path) (commit : NativeCommit) : Prop :=
  (∀ p ∈ commit.changedPaths, p ≠ [] ∧ Plain p) ∧ ∀ p ∈ prefixes, Plain p

instance (prefixes : List Path) (commit : NativeCommit) : Decidable (Legible prefixes commit) :=
  inferInstanceAs (Decidable ((∀ p ∈ commit.changedPaths, p ≠ [] ∧ Plain p) ∧ ∀ p ∈ prefixes, Plain p))

theorem mem_treeListing {tree : Node} (htree : tree.Proper) (ht : Plain t) (p : Path)
    (f : FileEntry) : (p, f) ∈ treeListing tree t ↔ tree.fileAt p = some f ∧ t <+: p := by
  have hsplit : splitPath t = t := ht
  rw [treeListing, hsplit, (Node.lists_listFiles htree t).mem, Node.fileAt_eq_some]
  constructor
  · rintro ⟨hget, hunder, -⟩
    exact ⟨hget, hunder⟩
  · rintro ⟨hget, hunder⟩
    exact ⟨hget, hunder, fun _ h => nomatch h⟩

section Commit

variable {before : Node} {commit : NativeCommit}

theorem Legible.plain_targets (h : Legible prefixes commit) :
    ∀ t ∈ projectionTargets commit.changedPaths prefixes, Plain t := by
  intro t ht
  rcases (projectionTarget_cases ht).2 with hc | hbase
  · exact (h.1 t hc).2
  · exact h.2 t hbase

variable (hcovered : ChangesCovered before commit.tree commit.changedPaths)
include hcovered

theorem projectedAt_of_apart {p : Path} (hapart : ∀ c ∈ commit.changedPaths, c <+: p →
    ∀ base ∈ prefixes, ¬ base <+: p) : projectedAt prefixes commit.tree p =
      projectedAt prefixes before p := by
  simp only [projectedAt]
  by_cases hin : inAnyPrefix prefixes p = true
  · have hsame : before.fileAt p = commit.tree.fileAt p := by
      by_contra hne
      obtain ⟨c, hc, hcp⟩ := hcovered p hne
      obtain ⟨base, hbase, hbp⟩ := inAnyPrefix_iff.mp hin
      exact hapart c hc hcp base hbase hbp
    rw [hsame]
  · simp [hin]

/-- A listing of targets that are read as they are written brings the files from the parent's tree
to the commit's own. -/
theorem applyListing_projected (htree : commit.tree.Proper)
    (hplain : ∀ t ∈ projectionTargets commit.changedPaths prefixes, Plain t) {files : FileMap}
    (hfiles : ∀ p, files.get p = projectedAt prefixes before p) (p : Path) :
    (applyListing files (projectionTargets commit.changedPaths prefixes)
      (treeListing commit.tree)).1.get p = projectedAt prefixes commit.tree p := by
  rw [get_applyListing fun t ht => mem_treeListing htree (hplain t ht)]
  by_cases hunder : ∃ t ∈ projectionTargets commit.changedPaths prefixes, t <+: p
  · obtain ⟨t, ht, htp⟩ := id hunder
    obtain ⟨⟨base, hbase, hle⟩, -⟩ := projectionTarget_cases ht
    have hin : inAnyPrefix prefixes p = true := inAnyPrefix_iff.mpr ⟨base, hbase, hle.trans htp⟩
    simp [projectedAt, hin, hunder]
  · -- no target is above the path, so its file is the same or the path is not in the slice
    rw [if_neg hunder, hfiles]
    exact (projectedAt_of_apart hcovered fun c hc hcp base hbase hbp =>
      hunder (exists_target_above hc hcp hbase hbp)).symm

theorem projectedAt_of_untouched (hlegible : Legible prefixes commit)
    (htouch : ¬ commitTouchesPrefixes prefixes commit = true) (p : Path) :
    projectedAt prefixes commit.tree p = projectedAt prefixes before p := by
  refine projectedAt_of_apart hcovered fun c hc hcp base hbase hbp => htouch ?_
  have hroot := (hlegible.1 c hc).1
  rw [commitTouchesPrefixes, any_eq_true]
  refine ⟨c, hc, any_eq_true.mpr ⟨base, hbase, ?_⟩⟩
  rcases prefix_or_prefix_of_prefix hcp hbp with h | h
  · simp [hroot, h]
  · simp [h]

end Commit

/-! ## Runs of updates -/

/-- A native history over the tree before it, each commit with proper names and with changed paths
that cover what it changes and are legible. -/
def CoveredHistory (prefixes : List Path) : Node → List NativeCommit → Prop
  | _, [] => True
  | before, commit :: rest =>
    commit.tree.Proper ∧ Legible prefixes commit ∧
      ChangesCovered before commit.tree commit.changedPaths ∧
        CoveredHistory prefixes commit.tree rest

/-- The commits of a history that change the slice. -/
inductive Produces (prefixes : List Path) : Node → List NativeCommit → List String → Prop
  | nil (before : Node) : Produces prefixes before [] []
  | changed {before : Node} {commit : NativeCommit} {rest : List NativeCommit} {ids : List String} :
      (∃ p, projectedAt prefixes commit.tree p ≠ projectedAt prefixes before p) →
      Produces prefixes commit.tree rest ids →
      Produces prefixes before (commit :: rest) (commit.id :: ids)
  | same {before : Node} {commit : NativeCommit} {rest : List NativeCommit} {ids : List String} :
      (∀ p, projectedAt prefixes commit.tree p = projectedAt prefixes before p) →
      Produces prefixes commit.tree rest ids → Produces prefixes before (commit :: rest) ids

/-- The tree after a history. -/
def treeAfter (before : Node) (history : List NativeCommit) : Node :=
  history.foldl (fun _ commit => commit.tree) before

@[simp] theorem treeAfter_nil (before : Node) : treeAfter before [] = before := rfl

@[simp] theorem treeAfter_cons (before : Node) (commit : NativeCommit) (rest : List NativeCommit) :
    treeAfter before (commit :: rest) = treeAfter commit.tree rest := rfl

theorem treeAfter_append (before : Node) (h h' : List NativeCommit) :
    treeAfter before (h ++ h') = treeAfter (treeAfter before h) h' := foldl_append

variable {h : List NativeCommit} {ids : List String} {before : Node} {h' : List NativeCommit}

theorem Produces.append {ids' : List String} (hp : Produces prefixes before h ids)
    (hp' : Produces prefixes (treeAfter before h) h' ids') :
    Produces prefixes before (h ++ h') (ids ++ ids') := by
  induction hp with
  | nil => exact hp'
  | changed hdiff _ ih => exact .changed hdiff (ih hp')
  | same hsame _ ih => exact .same hsame (ih hp')

theorem CoveredHistory.append :
    CoveredHistory prefixes before (h ++ h') ↔
      CoveredHistory prefixes before h ∧ CoveredHistory prefixes (treeAfter before h) h' := by
  induction h generalizing before with
  | nil => simp [CoveredHistory]
  | cons commit rest ih => simp [CoveredHistory, ih, and_assoc]

/-- A projection that is at a point of a history. -/
structure At (prefixes : List Path) (before : Node) (history : List NativeCommit) (ids : List String)
    (state : ProjectionState) : Prop where
  files : ∀ p, state.files.get p = projectedAt prefixes (treeAfter before history) p
  commits : ∃ new, state.commits = ids ++ new ∧ Produces prefixes before history new

variable {rest : List NativeCommit} {state : ProjectionState} {commit : NativeCommit}
theorem At.cons_same
    (hsame : ∀ p, projectedAt prefixes commit.tree p = projectedAt prefixes before p)
    (h : At prefixes commit.tree rest ids state) :
    At prefixes before (commit :: rest) ids state := by
  obtain ⟨new, hnew, hprod⟩ := h.commits
  exact ⟨h.files, new, hnew, .same hsame hprod⟩

theorem At.cons_changed
    (hdiff : ∃ p, projectedAt prefixes commit.tree p ≠ projectedAt prefixes before p)
    (h : At prefixes commit.tree rest (ids ++ [commit.id]) state) :
    At prefixes before (commit :: rest) ids state := by
  obtain ⟨new, hnew, hprod⟩ := h.commits
  exact ⟨h.files, commit.id :: new, by rw [hnew]; simp, .changed hdiff hprod⟩

/-- What recording pending commits of `history` must reach: all of them its end, some of them the
last one recorded. -/
def Reaches (prefixes : List Path) (before : Node) (history : List NativeCommit) (ids : List String)
    (state : ProjectionState) (pending : List (NativeCommit × List FileChange)) : Prop :=
  At prefixes before history ids (pending.foldl .record state) ∧
    ∀ k, (pending.take k).foldl .record state = state ∨
      ∃ h commit rest, history = h ++ commit :: rest ∧
        ((pending.take k).foldl .record state).nativeHead = some commit.id ∧
        At prefixes before (h ++ [commit]) ids ((pending.take k).foldl .record state)

variable {pending : List (NativeCommit × List FileChange)}

theorem Reaches.cons_same
    (hsame : ∀ p, projectedAt prefixes commit.tree p = projectedAt prefixes before p)
    (h : Reaches prefixes commit.tree rest ids state pending) :
    Reaches prefixes before (commit :: rest) ids state pending := by
  refine ⟨h.1.cons_same hsame, fun k => ?_⟩
  rcases h.2 k with hnone | ⟨front, c, back, rfl, hhead, hat⟩
  · exact .inl hnone
  · exact .inr ⟨commit :: front, c, back, rfl, hhead, hat.cons_same hsame⟩

theorem Reaches.cons_changed {changes : List FileChange}
    (hdiff : ∃ p, projectedAt prefixes commit.tree p ≠ projectedAt prefixes before p)
    (hfiles : ∀ p, (state.record (commit, changes)).files.get p =
      projectedAt prefixes commit.tree p)
    (hids : state.commits = ids)
    (h : Reaches prefixes commit.tree rest (ids ++ [commit.id]) (state.record (commit, changes))
      pending) : Reaches prefixes before (commit :: rest) ids state ((commit, changes) :: pending) := by
  refine ⟨h.1.cons_changed hdiff, fun k => ?_⟩
  cases k with
  | zero => exact .inl rfl
  | succ k =>
    rw [take_succ_cons, foldl_cons]
    refine .inr ?_
    rcases h.2 k with hnone | ⟨front, c, back, rfl, hhead, hat⟩
    · rw [hnone]
      refine ⟨[], commit, rest, rfl, rfl, At.cons_changed hdiff ⟨hfiles, [], ?_, .nil _⟩⟩
      simp [ProjectionState.record, hids]
    · exact ⟨commit :: front, c, back, rfl, hhead, hat.cons_changed hdiff⟩

variable {history : List NativeCommit}

theorem reaches_pending (hcovered : CoveredHistory prefixes before history) {files : FileMap}
    (hfiles : ∀ p, files.get p = projectedAt prefixes before p)
    (hstate : ∀ p, state.files.get p = projectedAt prefixes before p) (hids : state.commits = ids) :
    Reaches prefixes before history ids state
      (pendingCommits prefixes files (history.filter (commitTouchesPrefixes prefixes))) := by
  induction history generalizing before state files ids with
  | nil =>
    refine ⟨⟨hstate, [], ?_, .nil before⟩, fun k => .inl ?_⟩
    · simp [pendingCommits, hids]
    · simp [pendingCommits]
  | cons commit rest ih =>
    obtain ⟨htree, hlegible, hcov, hrest⟩ := hcovered
    by_cases htouch : commitTouchesPrefixes prefixes commit = true
    · rw [filter_cons_of_pos htouch, pendingCommits]
      have happlied := applyListing_projected hcov htree hlegible.plain_targets hfiles
      split_ifs with hnone
      · have hsame : ∀ p, projectedAt prefixes commit.tree p = projectedAt prefixes before p := by
          intro p
          rw [← happlied, applyListing_eq_nil.mp hnone, hfiles]
        exact (ih hrest happlied (fun p => by rw [hstate, hsame]) hids).cons_same hsame
      · have hdiff : ∃ p, projectedAt prefixes commit.tree p ≠ projectedAt prefixes before p := by
          by_contra hall
          push Not at hall
          refine hnone (applyListing_eq_nil.mpr fun p => ?_)
          rw [happlied, hall, hfiles]
        have hrecorded : ∀ p, (state.record (commit, (applyListing files
            (projectionTargets commit.changedPaths prefixes) (treeListing commit.tree)).2)).files.get p =
            projectedAt prefixes commit.tree p := by
          intro p
          have hsame : ∀ q, state.files.get q = files.get q := fun q => by rw [hstate, hfiles]
          rw [ProjectionState.record, Table.get_writeAll_congr hsame,
            get_writeAll_changes, happlied]
        refine Reaches.cons_changed hdiff hrecorded hids (ih hrest happlied hrecorded ?_)
        rw [ProjectionState.record, hids]
    · rw [filter_cons_of_neg htouch]
      have hsame := projectedAt_of_untouched hcov hlegible htouch
      exact (ih hrest (fun p => by rw [hfiles, hsame]) (fun p => by rw [hstate, hsame])
        hids).cons_same hsame

/-- A projection that is at a commit of a history, or has not begun. -/
def Projected (prefixes : List Path) (history : List NativeCommit) (state : ProjectionState) :
    Prop :=
  state = .fresh ∨ ∃ h commit rest, history = h ++ commit :: rest ∧
    state.nativeHead = some commit.id ∧ At prefixes .nil (h ++ [commit]) [] state

theorem At.of_append (hprod : Produces prefixes before h ids)
    (hat : At prefixes (treeAfter before h) rest ids state) :
    At prefixes before (h ++ rest) [] state := by
  obtain ⟨new, hnew, hprod'⟩ := hat.commits
  refine ⟨fun p => ?_, ids ++ new, hnew, hprod.append hprod'⟩
  rw [treeAfter_append, hat.files]

theorem at_fresh (prefixes : List Path) : At prefixes .nil [] [] .fresh where
  files p := by simp [ProjectionState.fresh, projectedAt]
  commits := ⟨[], rfl, .nil _⟩

theorem updateHistory_from (h rest : List NativeCommit)
    (hcovered : CoveredHistory prefixes .nil (h ++ rest)) (hat : At prefixes .nil h [] state)
    (hprojected : Projected prefixes (h ++ rest) state) (hstart : (if state.nativeHead.isSome &&
      !(listCommitChain prefixes (h ++ rest) state.nativeHead).2 then .fresh else state) = state)
    (hchain : (listCommitChain prefixes (h ++ rest) state.nativeHead).1 =
      rest.filter (commitTouchesPrefixes prefixes)) (recorded : Option Nat) :
    Projected prefixes (h ++ rest) (updateHistory prefixes (h ++ rest) recorded state) ∧
      (recorded = none → ∀ head, (h ++ rest).getLast? = some head →
        (updateHistory prefixes (h ++ rest) recorded state).nativeHead = some head.id) := by
  obtain ⟨ids, hids, hprod⟩ := hat.commits
  have hreach := reaches_pending (CoveredHistory.append.mp hcovered).2 hat.files hat.files hids
  rw [updateHistory, hstart, hchain]
  cases hlast : (h ++ rest).getLast? with
  | none => exact ⟨hprojected, fun _ head hhead => nomatch hhead⟩
  | some head =>
    dsimp only
    split_ifs with hsame
    · refine ⟨hprojected, fun _ head' hhead' => ?_⟩
      rw [← hsame, Option.some.inj hhead']
    · cases recorded with
      | none =>
        obtain ⟨front, hfront⟩ := List.getLast?_eq_some_iff.mp hlast
        have hend := hreach.1.of_append hprod
        refine ⟨.inr ⟨front, head, [], hfront, rfl, ?_⟩, fun _ head' hhead' => ?_⟩
        · rw [← hfront]
          exact ⟨hend.files, hend.commits⟩
        · rw [Option.some.inj hhead']
      | some k =>
        refine ⟨?_, fun hnone => nomatch hnone⟩
        rcases hreach.2 k with hstay | ⟨front, commit, back, rfl, hhead, hend⟩
        · dsimp only
          rw [hstay]
          exact hprojected
        · refine .inr ⟨h ++ front, commit, back, by simp, hhead, ?_⟩
          rw [append_assoc]
          exact hend.of_append hprod

/-- An update of a projection that is at any commit of the history, over what the ref has of it. -/
theorem updateHistory_projected
    (hnodup : (history.map NativeCommit.id).Nodup) (hcovered : CoveredHistory prefixes .nil history)
    (hstate : Projected prefixes history state) (n : Nat) (recorded : Option Nat) :
    Projected prefixes (history.take n) (updateHistory prefixes (history.take n) recorded state) ∧
      (recorded = none → ∀ head, (history.take n).getLast? = some head →
        (updateHistory prefixes (history.take n) recorded state).nativeHead = some head.id) := by
  have hcov : CoveredHistory prefixes .nil (history.take n) := by
    rw [← take_append_drop n history] at hcovered
    exact (CoveredHistory.append.mp hcovered).1
  -- an update from the beginning
  have hfresh := updateHistory_from [] (history.take n) hcov (at_fresh prefixes)
    (.inl rfl) (by simp [ProjectionState.fresh]) (by simp [ProjectionState.fresh, listCommitChain])
    recorded
  rcases hstate with rfl | ⟨h, commit, rest, rfl, hhead, hat⟩
  · exact hfresh
  rw [map_append, nodup_append] at hnodup
  obtain ⟨-, hback, hdisjoint⟩ := hnodup
  have hbefore : ∀ c ∈ h, c.id ≠ commit.id := fun c hc heq =>
    hdisjoint c.id (mem_map_of_mem hc) commit.id (by simp) heq
  by_cases hn : h.length < n
  · -- the ref still has the commit: the update goes on after it
    obtain ⟨m, rfl⟩ : ∃ m, n = h.length + (m + 1) := ⟨n - h.length - 1, by omega⟩
    have htake : (h ++ commit :: rest).take (h.length + (m + 1)) =
        (h ++ [commit]) ++ rest.take m := by
      rw [take_append]
      simp
    have hfound : (((h ++ [commit]) ++ rest.take m).any fun c => c.id = commit.id) = true := by
      simp
    have hdrop : (((h ++ [commit]) ++ rest.take m).dropWhile fun c => c.id ≠ commit.id) =
        commit :: rest.take m := by
      rw [append_assoc, dropWhile_append_of_pos (by simpa using hbefore)]
      simp
    rw [htake] at hcov ⊢
    refine updateHistory_from (h ++ [commit]) (rest.take m) hcov hat
      (.inr ⟨h, commit, rest.take m, by simp, hhead, hat⟩) ?_ ?_ recorded
    · rw [hhead, listCommitChain]
      simp
    · rw [hhead, listCommitChain, if_pos hfound, hdrop]
      rfl
  · -- the ref has gone back behind the commit: the update begins again
    have htake : (h ++ commit :: rest).take n = h.take n := by
      rw [take_append_of_le_length (by omega)]
    have hlost : ((h.take n).any fun c => c.id = commit.id) = false := by
      simp only [any_eq_false, decide_eq_true_eq]
      exact fun c hc => hbefore c (mem_of_mem_take hc)
    rw [htake] at hfresh ⊢
    have hagain : updateHistory prefixes (h.take n) recorded state =
        updateHistory prefixes (h.take n) recorded .fresh := by
      have hchain : (listCommitChain prefixes (h.take n) (some commit.id)).2 = false := by
        simp only [listCommitChain, hlost, Bool.false_eq_true, if_false]
      have hreset : (if state.nativeHead.isSome &&
          !(listCommitChain prefixes (h.take n) state.nativeHead).2 then .fresh else state) =
          ProjectionState.fresh := by
        rw [hhead, hchain]
        rfl
      rw [updateHistory, hreset]
      rfl
    rw [hagain]
    exact hfresh

theorem Projected.mono (hp : Projected prefixes h state)
    (rest : List NativeCommit) : Projected prefixes (h ++ rest) state := by
  rcases hp with rfl | ⟨front, commit, back, rfl, hhead, hat⟩
  · exact .inl rfl
  · exact .inr ⟨front, commit, back ++ rest, by simp, hhead, hat⟩

/-- The projection after update runs, each over the first commits of the history that the ref had at
the time, and each complete or interrupted after some recorded commits. -/
def updateRuns (prefixes : List Path) (history : List NativeCommit)
    (runs : List (Nat × Option Nat)) :
    ProjectionState :=
  runs.foldl (fun state run => updateHistory prefixes (history.take run.1) run.2 state) .fresh

theorem projected_updateRuns (hnodup : (history.map NativeCommit.id).Nodup)
    (hcovered : CoveredHistory prefixes .nil history) (runs : List (Nat × Option Nat)) :
    Projected prefixes history (updateRuns prefixes history runs) := by
  induction runs using List.reverseRecOn with
  | nil => exact .inl rfl
  | append_singleton runs run ih =>
    have hstep := (updateHistory_projected hnodup hcovered ih run.1 run.2).1
    have hmono := hstep.mono (history.drop run.1)
    rw [take_append_drop] at hmono
    rw [updateRuns, foldl_append]
    exact hmono

/-- **Projected files are the slice.** Over a native history with distinct ids whose changed paths
cover what each commit changes and are legible, and for every sequence of update runs: the
projection is at a commit of the history (the last one the ref had, if the last run was not
interrupted), its files are the projectable files of that commit under the included prefixes, and it
has made Git commits for exactly the commits so far that change them. -/
theorem projection_follows_history (prefixes : List Path) (history : List NativeCommit)
    (hnodup : (history.map NativeCommit.id).Nodup)
    (hcovered : CoveredHistory prefixes .nil history) (runs : List (Nat × Option Nat)) :
    (updateRuns prefixes history runs = .fresh ∨
      ∃ h commit rest, history = h ++ commit :: rest ∧
        (updateRuns prefixes history runs).nativeHead = some commit.id ∧
        (∀ p, (updateRuns prefixes history runs).files.get p = projectedAt prefixes commit.tree p) ∧
        Produces prefixes .nil (h ++ [commit]) (updateRuns prefixes history runs).commits) ∧
    ∀ n head, (history.take n).getLast? = some head →
      (updateRuns prefixes history (runs ++ [(n, none)])).nativeHead = some head.id := by
  have hprojected := projected_updateRuns hnodup hcovered runs
  refine ⟨?_, fun n head hhead => ?_⟩
  · rcases hprojected with hfresh | ⟨h, commit, rest, hhistory, hhead, hat⟩
    · exact .inl hfresh
    · obtain ⟨ids, hids, hprod⟩ := hat.commits
      refine .inr ⟨h, commit, rest, hhistory, hhead, fun p => ?_, by rw [hids]; exact hprod⟩
      rw [hat.files, treeAfter_append]
      rfl
  · have hstep := (updateHistory_projected hnodup hcovered hprojected n none).2 rfl head hhead
    rw [updateRuns, foldl_append]
    exact hstep

/-! ## Runs -/

variable {f : FileEntry} {after : Node}

theorem covered_setFile {p : Path} (h : before.setFile p f = .ok after) (hp : p ∈ changed) :
    ChangesCovered before after changed := by
  intro q hne
  by_contra hnone
  push Not at hnone
  refine hne ((Node.changesIn_setAt h).files q fun p' hp' => ?_).symm
  rw [mem_singleton.mp hp']
  exact hnone p hp

theorem proper_setFile {p : Path} (hbefore : before.Proper) (hp : ∀ a ∈ p, validSegment a = true)
    (h : before.setFile p f = .ok after) : after.Proper := by
  have hfile : (Entry.file f).WellFormed (fun a => validSegment a = true) (fun _ => True) := trivial
  exact hbefore.setAt hp hfile h

/-- A file. -/
def sampleFile : FileEntry := ⟨0o100644, "blob", "hash", 1⟩

/-- One file in a folder. -/
def folderTree (folder : String) : Node :=
  .directory "acme" (.directory "app" (.directory folder (.file "f" sampleFile .nil) .nil) .nil) .nil

/-- The file and another one beside its folder. -/
def besideTree (name folder : String) : Node :=
  .directory "acme" (.directory "app" (.file name sampleFile
    (.directory folder (.file "f" sampleFile .nil) .nil)) .nil) .nil

/-- A folder whose name ends in a blank, and then a file beside it that one edit names with the
blank and another one without. -/
def spacedHistory : List NativeCommit :=
  [⟨"c1", folderTree "d ", [["acme", "app", "d ", "f"]]⟩,
    ⟨"c2", besideTree "d" "d ", [["acme", "app", "d"], ["acme", "app", "d "]]⟩]

/-- The projection lists the folder under its trimmed name and loses its file. -/
theorem spaced_folder_lost :
    ChangesCovered .nil (folderTree "d ") [["acme", "app", "d ", "f"]] ∧
    ChangesCovered (folderTree "d ") (besideTree "d" "d ") [["acme", "app", "d"],
      ["acme", "app", "d "]] ∧
    (updateRuns [["acme", "app"]] spacedHistory [(2, none)]).nativeHead = some "c2" ∧
    (updateRuns [["acme", "app"]] spacedHistory [(2, none)]).files.get ["acme", "app", "d ", "f"] =
      none ∧
    projectedAt [["acme", "app"]] (besideTree "d" "d ") ["acme", "app", "d ", "f"] =
      some ⟨"100644", "hash"⟩ := by
  refine ⟨?_, ?_, by decide +kernel, by decide +kernel, by decide +kernel⟩
  · exact covered_setFile (p := ["acme", "app", "d ", "f"]) (f := sampleFile)
      (by decide +kernel) (by simp)
  · exact covered_setFile (p := ["acme", "app", "d"]) (f := sampleFile) (by decide +kernel)
      (by simp)

/-- A folder, and then a file beside it. -/
def besideHistory : List NativeCommit :=
  [⟨"c1", folderTree "d", [["acme", "app", "d", "f"]]⟩,
    ⟨"c2", besideTree "a" "d", [["acme", "app", "a"]]⟩]

theorem projection_follows_besideHistory :
    (updateRuns [["acme", "app"]] besideHistory [(1, none), (2, none)]).nativeHead = some "c2" ∧
    (updateRuns [["acme", "app"]] besideHistory [(1, none), (2, none)]).commits = ["c1", "c2"] ∧
    ∃ h commit rest, besideHistory = h ++ commit :: rest ∧ some commit.id = some "c2" ∧
      ∀ p, (updateRuns [["acme", "app"]] besideHistory [(1, none), (2, none)]).files.get p =
        projectedAt [["acme", "app"]] commit.tree p := by
  have hfirst : (Node.nil).setFile ["acme", "app", "d", "f"] sampleFile = .ok (folderTree "d") := by
    decide +kernel
  have hsecond : (folderTree "d").setFile ["acme", "app", "a"] sampleFile =
      .ok (besideTree "a" "d") := by
    decide +kernel
  have hempty : Node.nil.Proper := trivial
  have htree : (folderTree "d").Proper := proper_setFile hempty (by decide) hfirst
  have hcovered : CoveredHistory [["acme", "app"]] .nil besideHistory :=
    ⟨htree, by decide, covered_setFile hfirst (by simp),
      proper_setFile htree (by decide) hsecond, by decide, covered_setFile hsecond (by simp), trivial⟩
  have hhead : (updateRuns [["acme", "app"]] besideHistory [(1, none), (2, none)]).nativeHead =
      some "c2" := by decide +kernel
  obtain ⟨hfresh | ⟨h, commit, rest, hhistory, hid, hfiles, -⟩, -⟩ :=
    projection_follows_history [["acme", "app"]] besideHistory (by decide) hcovered
      [(1, none), (2, none)]
  · rw [hfresh] at hhead
    cases hhead
  · exact ⟨hhead, by decide +kernel, h, commit, rest, hhistory, by rw [← hid, hhead], hfiles⟩

end GitSlice
