import GitSlice.Store.Cores
import GitSlice.Store.Order

/-! # What landed is the current patchset
`AddPatchset` refuses abandoned and submitted changesets but not one that waits to be published, so
a patchset can become current beside a commit made from an older one: `pushWhileWaiting` is such a
run. While no patchset is added to a changeset that waits, the commit of every submitted changeset
is its parent's tree with the edits of the current patchset (`landed_current_patchset`). -/

namespace GitSlice

open Table

/-- The changeset's commit has the tree that the edits of its current patchset make of the
parent's. -/
def LandedAsCurrent (s : State) (c : Changeset) : Prop :=
  ∃ k ∈ c.commit, ∃ row ∈ s.commits.get k, ∃ parent ∈ row.parentIds, row.parentIds = [parent] ∧
    ∃ n ∈ s.rootTree parent, ∃ id ∈ c.currentPatchset, ∃ ps ∈ s.patchsets.get id,
      resultTreeForPatchset s.blobs n ps.fileEdits = .ok row.rootTree

instance (s : State) (c : Changeset) : Decidable (LandedAsCurrent s c) :=
  inferInstanceAs (Decidable (∃ k ∈ c.commit, ∃ row ∈ s.commits.get k, ∃ parent ∈ row.parentIds,
    row.parentIds = [parent] ∧ ∃ n ∈ s.rootTree parent, ∃ id ∈ c.currentPatchset,
      ∃ ps ∈ s.patchsets.get id, resultTreeForPatchset s.blobs n ps.fileEdits = .ok row.rootTree))

/-- No patchset is added to a changeset that waits. -/
def NoPushWhileWaiting (s : State) : Action → Prop
  | .addPatchset _ id _ _ _ => ∀ c ∈ s.changesets.get id, c.status ≠ .pendingPublish
  | _ => True

instance (s : State) (a : Action) : Decidable (NoPushWhileWaiting s a) := by
  unfold NoPushWhileWaiting
  split <;> infer_instance

/-! ## The current patchset -/

variable {s s' : State} {a : Action}

theorem CoreMove.core_kept (h : CoreMove s a s') {id : ChangesetID} {c : ChangesetCore}
    (hc : s.core id = some c)
    (ha : ∀ now id expected patchset upload, a ≠ .addPatchset now id expected patchset upload) :
    s'.core id = some c := by
  cases h with
  | kept a s' hsame => rw [hsame.core, hc]
  | created now k subject req s' hnew hcore =>
    rw [hcore, Function.update_apply, if_neg, hc]
    rintro rfl
    rw [hnew] at hc
    cases hc
  | pushed => exact absurd rfl (ha _ _ _ _ _)
  | approved _ _ _ _ _ _ _ _ hcore | reported _ _ _ _ _ _ _ _ _ _ _ _ hcore => rw [hcore, hc]

/-- Only `AddPatchset` changes which patchset is current, and only of an open changeset. -/
theorem Transition.currentPatchset (h : Transition s a s') {id : ChangesetID} {c : Changeset}
    (hc : s.changesets.get id = some c) :
    ∃ c', s'.changesets.get id = some c' ∧ (c'.currentPatchset = c.currentPatchset ∨
      ∃ now expected patchset upload, a = .addPatchset now id expected patchset upload ∧
        c.status ≠ .abandoned ∧ c.status ≠ .submitted) := by
  have hcore := h.core
  cases h with
  | refused | fail | reset => exact ⟨c, hc, .inl rfl⟩
  | addPatchset now k expected patchset upload d baseTree v resultTree hd hab hsub =>
    refine exists_get_set hc (.inl rfl) ?_
    rintro rfl hget
    rw [hd] at hget
    cases hget
    exact .inr ⟨now, expected, patchset, upload, rfl, hab, hsub⟩
  | _ =>
    obtain ⟨c', hc', heq⟩ := State.core_some (hcore.core_kept (State.core_eq_some hc) nofun)
    exact ⟨c', hc', .inl (congrArg ChangesetCore.currentPatchset heq)⟩

/-- The rows of the queue are of the current patchsets of their changesets. -/
def QueuedCurrent (s : State) : Prop :=
  ∀ r ∈ s.queue, ∃ c, s.changesets.get r.changeset = some c ∧ c.currentPatchset = some r.patchset

variable {r : QueueRow} {root : Node}

theorem Sound.status_of_row (hs : Sound root s)
    (hr : r ∈ s.queue) : ∃ c, s.changesets.get r.changeset = some c ∧
      (c.status = .pendingPublish ∨ c.status = .abandoned ∨ c.status = .submitted) := by
  rcases hcommit : r.commit with _ | k
  · obtain ⟨c, hc, hst⟩ := hs.status.waiting r hr hcommit
    exact ⟨c, hc, hst.elim .inl fun h => .inr (.inl h)⟩
  · obtain ⟨e, he, hcs, -⟩ := hs.status.landed r hr k hcommit
    obtain ⟨c, hc, hst, -⟩ := hs.status.submitted e he
    exact ⟨c, hcs ▸ hc, .inr (.inr hst)⟩

theorem Move.row (h : Move s a s') (hr : r ∈ s'.queue) :
    (∃ r₀ ∈ s.queue, r₀.claimed = r.claimed) ∨
      ∃ now req adm ps, a = .submit now req ∧ Admits s req adm ps ∧
        s' = GitSlice.admitted s now req.changeset adm ∧
        r = ⟨s.nextSequence, req.changeset, adm.patchset, none⟩ := by
  have hsame : s'.queue = s.queue → ∃ r₀ ∈ s.queue, r₀.claimed = r.claimed := fun hq =>
    ⟨r, hq ▸ hr, rfl⟩
  cases h with
  | prepares _ _ h =>
    exact .inl (hsame (by rw [State.queue, h.pendingPublish, State.queue]))
  | admitted now req adm ps ha =>
    rw [mem_queue_admitted] at hr
    rcases hr with hr | rfl
    · exact .inl ⟨r, hr, rfl⟩
    · exact .inr ⟨now, req, adm, ps, rfl, ha, rfl, rfl⟩
  | abandoned | built => exact .inl (hsame rfl)
  | requeued _ _ h => exact .inl (hsame h.queue)
  | claimed p now limit s' claim hidle hclaim => exact .inl ⟨r, queue_claim hclaim ▸ hr, rfl⟩
  | published =>
    rw [queue_setStage, queue_publishBatch] at hr
    obtain ⟨r₀, hr₀, rfl⟩ := List.mem_map.mp hr
    exact .inl ⟨r₀, hr₀, (claimed_mark _ r₀).symm⟩

theorem queuedCurrent_step (hs : Sound root s) (h : QueuedCurrent s)
    (hcond : NoPushWhileWaiting s a) :
    QueuedCurrent (step s a) := by
  intro r hr
  obtain ⟨r₀, hr₀, hclaimed⟩ | ⟨now, req, adm, ps, -, ha, hs', rfl⟩ := (step_move s a).row hr
  · have hcs : r₀.changeset = r.changeset := congrArg ClaimedRow.changeset hclaimed
    have hps : r₀.patchset = r.patchset := congrArg ClaimedRow.patchset hclaimed
    obtain ⟨c, hc, hcur⟩ := h r₀ hr₀
    rw [hcs] at hc
    rw [hps] at hcur
    obtain ⟨c', hc', hsame | ⟨now, expected, patchset, upload, rfl, hab, hsub⟩⟩ :=
      (step_transition s a).currentPatchset hc
    · exact ⟨c', hc', hsame.trans hcur⟩
    · -- the changeset has a row, so it waits, and the condition excludes the push
      obtain ⟨d, hd, hst⟩ := hs.status_of_row hr₀
      rw [hcs, hc] at hd
      cases hd
      have hpend : c.status ≠ .pendingPublish := hcond c hc
      rcases hst with hst | hst | hst
      · exact absurd hst hpend
      · exact absurd hst hab
      · exact absurd hst hsub
  · obtain ⟨hc, -, -, -, -, hcur, -, -⟩ := openForSubmit_ok ha.opened
    rw [hs']
    exact ⟨_, get_set_self _ _ _, hcur⟩

theorem queuedCurrent_run (root : Node) (as : List Action)
    (hcond : Machine.Meets step NoPushWhileWaiting (State.start root) as) :
    Sound root (Machine.run step (State.start root) as) ∧
      QueuedCurrent (Machine.run step (State.start root) as) :=
  Machine.run_induction (fun s => Sound root s ∧ QueuedCurrent s)
    (fun _ a h hc => ⟨sound_step h.1 a, queuedCurrent_step h.1 h.2 hc⟩)
    ⟨sound_start root, by simp [QueuedCurrent, State.queue, State.start]⟩ hcond

/-- **What landed is the current patchset**: in every run in which no patchset is added to a
changeset that waits, every submitted changeset has a commit whose tree is `ApplyEdits` of the
parent's tree with the edits of the current patchset. -/
theorem landed_current_patchset (root : Node) (as : List Action)
    (hcond : Machine.Meets step NoPushWhileWaiting (State.start root) as) :
    let s := Machine.run step (State.start root) as
    ∀ id c, s.changesets.get id = some c → c.status = .submitted → LandedAsCurrent s c := by
  intro s id c hc hst
  obtain ⟨hs, hcurrent⟩ := queuedCurrent_run root as hcond
  obtain ⟨e, he, rfl⟩ := hs.status.closed id c hc hst
  obtain ⟨c₁, hc₁, -, hcommit⟩ := hs.status.submitted e he
  obtain ⟨r, hr, hcs, hps, -⟩ := hs.status.logged e he
  obtain ⟨c₂, hc₂, hcur⟩ := hcurrent r hr
  obtain ⟨n, row, ps, edits, hl⟩ := hs.chain.landings e he
  rw [hc] at hc₁
  cases hc₁
  rw [hcs, hc] at hc₂
  cases hc₂
  have hresult : resultTreeForPatchset s.blobs n ps.fileEdits = .ok row.rootTree := by
    refine Except.bind_eq_ok.mpr ⟨edits, hl.treeEdits, ?_⟩
    rw [applyEdits, hl.root]
    rfl
  exact ⟨e.commit, hcommit, row, hl.commit, e.baseCommit, by rw [hl.parentIds]; simp,
    hl.parentIds, n, hl.parent, e.patchset, hps ▸ hcur, ps, hl.patchset, hresult⟩

/-! ## A push that meets a publish -/

/-- A changeset is admitted, gets another patchset while it waits, and is published. -/
def pushWhileWaiting : List Action :=
  twoAdmitted ++ [.addPatchset 7 "cs_1" none "ps_3" (oneFile ["acme", "site", "c.txt"]),
    .claim 1 8 1, .build 1 9, .finalize 1 10]

theorem not_landedAsCurrent_pushWhileWaiting :
    ∃ c, (Machine.run step (State.start .nil) pushWhileWaiting).changesets.get "cs_1" = some c ∧
      c.status = .submitted ∧
      ¬ LandedAsCurrent (Machine.run step (State.start .nil) pushWhileWaiting) c := by
  have h : ∃ c ∈ (Machine.run step (State.start .nil) pushWhileWaiting).changesets.get "cs_1",
      c.status = .submitted ∧
        ¬ LandedAsCurrent (Machine.run step (State.start .nil) pushWhileWaiting) c := by
    decide +kernel
  exact h

theorem landed_current_patchset_oneByOne :
    Machine.Meets step NoPushWhileWaiting (State.start .nil) oneByOne ∧
      ∃ c, (Machine.run step (State.start .nil) oneByOne).changesets.get "cs_1" = some c ∧
        c.status = .submitted ∧
          LandedAsCurrent (Machine.run step (State.start .nil) oneByOne) c := by
  have hcond : Machine.Meets step NoPushWhileWaiting (State.start .nil) oneByOne := by
    decide +kernel
  have hsubmitted : ∃ c ∈ (Machine.run step (State.start .nil) oneByOne).changesets.get "cs_1",
      c.status = .submitted := by
    decide +kernel
  obtain ⟨c, hc, hst⟩ := hsubmitted
  exact ⟨hcond, c, hc, hst, landed_current_patchset .nil oneByOne hcond "cs_1" c hc hst⟩

end GitSlice
