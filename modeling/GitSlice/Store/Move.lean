import GitSlice.Store.Step

/-! # Kinds of steps
For what is published, a step is of one of seven kinds. Most steps only prepare changesets, and many
only give rows back or end a publisher; neither changes which patchsets are admitted or landed.
`Move` says this: each invariant of the publication is proved by its seven cases.

The queue is looked at without the claims on its rows (`State.queue`), which is what claims,
releases and reaps leave alone. -/

namespace GitSlice

open List Table

/-! ## The queue without claims -/

/-- A row of `pending_publish` without the claim on it. -/
structure QueueRow where
  /-- The order of admission. -/
  sequence : Nat
  changeset : ChangesetID
  /-- The patchset admitted. -/
  patchset : PatchsetID
  /-- The commit it was published as. -/
  commit : Option CommitID
deriving DecidableEq

/-- A row without its claim. -/
def PendingPublish.queueRow (r : PendingPublish) : QueueRow :=
  ⟨r.sequence, r.changeset, r.patchset, r.commit⟩

/-- The **queue** of a state. -/
def State.queue (s : State) : List QueueRow := s.pendingPublish.map PendingPublish.queueRow

/-- A row of the queue as a claim keeps it. -/
def QueueRow.claimed (r : QueueRow) : ClaimedRow := ⟨r.sequence, r.changeset, r.patchset⟩

/-- The row of an entry that is published. -/
def QueueRow.mark (entries : List PublishEntry) (r : QueueRow) : QueueRow :=
  match entries.find? fun e => e.row.sequence = r.sequence with
  | none => r
  | some e => { r with commit := some e.commitId }

theorem map_queueRow_resetPendingPublishClaims (now : Time) (ids : List Nat)
    (rows : List PendingPublish) :
    (resetPendingPublishClaims now ids rows).map PendingPublish.queueRow =
      rows.map PendingPublish.queueRow := by
  rw [resetPendingPublishClaims, map_map]
  refine map_congr_left fun r _ => ?_
  dsimp only [Function.comp]
  split <;> rfl

theorem map_queueRow_markPendingPublished (now : Time) (entries : List PublishEntry)
    (rows : List PendingPublish) :
    (markPendingPublished now entries rows).map PendingPublish.queueRow =
      (rows.map PendingPublish.queueRow).map (QueueRow.mark entries) := by
  rw [markPendingPublished, map_map, map_map]
  refine map_congr_left fun r _ => ?_
  rw [Function.comp, Function.comp, QueueRow.mark, show r.queueRow.sequence = r.sequence from rfl]
  cases entries.find? fun e => e.row.sequence = r.sequence <;> rfl

@[simp] theorem queue_setStage (s : State) (p : PublisherID) (stage : PublisherStage) :
    (s.setStage p stage).queue = s.queue := rfl

@[simp] theorem queue_publishBatch (s : State) (now : Time) (build : PendingPublishBuild) :
    (publishBatch s now build).queue = s.queue.map (QueueRow.mark build.entries) := by
  rw [State.queue, publishBatch, map_queueRow_resetPendingPublishClaims,
    map_queueRow_markPendingPublished, State.queue]

@[simp] theorem queue_admitted (s : State) (now : Time) (id : ChangesetID) (a : Admission) :
    (admitted s now id a).queue = s.queue ++ [⟨s.nextSequence, id, a.patchset, none⟩] := by
  simp [State.queue, admitted, newPendingPublish, PendingPublish.queueRow]

theorem mem_queue_admitted {s : State} {now : Time} {id : ChangesetID} {a : Admission}
    {r : QueueRow} :
    r ∈ (admitted s now id a).queue ↔ r ∈ s.queue ∨ r = ⟨s.nextSequence, id, a.patchset, none⟩ := by
  rw [queue_admitted, mem_append, mem_singleton]

/-! ## Preparing steps -/

/-- What a changeset keeps while it is prepared. -/
structure Changeset.Kept (c c' : Changeset) : Prop where
  status : c'.status = c.status
  commit : c'.commit = c.commit
  parent : c'.parent = c.parent
  author : c'.author = c.author
  slice : c'.slice = c.slice

theorem Changeset.Kept.refl (c : Changeset) : c.Kept c := ⟨rfl, rfl, rfl, rfl, rfl⟩

/-- A step that **prepares**: nothing is admitted, abandoned or published by it. -/
structure Prepares (s s' : State) : Prop where
  pendingPublish : s'.pendingPublish = s.pendingPublish
  nextSequence : s'.nextSequence = s.nextSequence
  commits : s'.commits = s.commits
  ref : s'.ref = s.ref
  outbox : s'.outbox = s.outbox
  publishers : s'.publishers = s.publishers
  patchsets : s.patchsets.Extends s'.patchsets
  blobs : s.blobs.Extends s'.blobs
  kept : ∀ id c, s.changesets.get id = some c → ∃ c', s'.changesets.get id = some c' ∧ c.Kept c'
  fresh : ∀ id c', s'.changesets.get id = some c' →
    (∃ c, s.changesets.get id = some c ∧ c.Kept c') ∨
      (s.changesets.get id = none ∧ c'.status = .draft ∧ c'.commit = none)

/-- Changesets of which some were **only prepared**. -/
structure OnlyPrepared (changesets changesets' : Table ChangesetID Changeset) : Prop where
  kept : ∀ id c, changesets.get id = some c → ∃ c', changesets'.get id = some c' ∧ c.Kept c'
  fresh : ∀ id c', changesets'.get id = some c' →
    (∃ c, changesets.get id = some c ∧ c.Kept c') ∨
      (changesets.get id = none ∧ c'.status = .draft ∧ c'.commit = none)

variable {changesets changesets' : Table ChangesetID Changeset} {id : ChangesetID} {c' : Changeset}

theorem OnlyPrepared.refl : OnlyPrepared changesets changesets where
  kept := fun _ c h => ⟨c, h, .refl c⟩
  fresh := fun _ c h => .inl ⟨c, h, .refl c⟩

theorem OnlyPrepared.set
    (h : (∃ c, changesets.get id = some c ∧ c.Kept c') ∨
      (changesets.get id = none ∧ c'.status = .draft ∧ c'.commit = none)) :
    OnlyPrepared changesets (changesets.set id c') where
  kept := by
    intro k d hd
    refine exists_get_set hd (.refl d) fun _ hget => ?_
    obtain ⟨c, hc, hkept⟩ | ⟨hnone, -⟩ := h
    · rw [hc] at hget
      cases hget
      exact hkept
    · rw [hnone] at hget
      cases hget
  fresh := by
    intro k d hd
    rcases get_set_cases hd with ⟨rfl, rfl⟩ | ⟨-, hd⟩
    · exact h
    · exact .inl ⟨d, hd, .refl d⟩

theorem OnlyPrepared.update {f : ChangesetID → Changeset → Changeset}
    (hf : ∀ k (d : Changeset), d.Kept (f k d)) :
    OnlyPrepared changesets (changesets.update f) where
  kept := fun k d h => ⟨f k d, by rw [get_update, h]; rfl, hf k d⟩
  fresh := by
    intro k d' h
    rw [get_update, Option.map_eq_some_iff] at h
    obtain ⟨d, hd, rfl⟩ := h
    exact .inl ⟨d, hd, hf k d⟩

theorem kept_clearRequirementBlock (c : Changeset) (now : Time) :
    c.Kept (c.clearRequirementBlock now) := by
  unfold Changeset.clearRequirementBlock
  split
  · exact ⟨rfl, rfl, rfl, rfl, rfl⟩
  · exact .refl c

variable {s s' : State}

theorem Prepares.onlyPrepared (h : Prepares s s') : OnlyPrepared s.changesets s'.changesets :=
  ⟨h.kept, h.fresh⟩

theorem Prepares.queue (h : Prepares s s') : s'.queue = s.queue := by
  rw [State.queue, h.pendingPublish, State.queue]

theorem OnlyPrepared.prepares {patchsets : Table PatchsetID Patchset} {approvals : List Approval}
    {results : Table (ChangesetID × PatchsetID × String) String} {slices : Table SliceID Slice}
    {blobs : Table BlobID Blob} {heads : Table Path PathHead}
    (h : OnlyPrepared s.changesets changesets) (hps : s.patchsets.Extends patchsets)
    (hb : s.blobs.Extends blobs) :
    Prepares s ⟨changesets, patchsets, approvals, results, slices, blobs, s.pendingPublish,
      s.nextSequence, heads, s.commits, s.ref, s.outbox, s.flatIndex, s.publishers⟩ :=
  ⟨rfl, rfl, rfl, rfl, rfl, rfl, hps, hb, h.kept, h.fresh⟩

theorem prepares_blockSubmit (s : State) (now : Time) (id : ChangesetID) (reason : String)
    (heads : Table Path PathHead) : Prepares s (blockSubmit s now id reason heads) := by
  refine OnlyPrepared.prepares (.update fun k c => ?_) (.refl _) (.refl _)
  split
  · exact ⟨rfl, rfl, rfl, rfl, rfl⟩
  · exact .refl c

/-! ## The seven kinds -/

/-- A step that only gives rows back or ends publishers. -/
structure Requeues (s s' : State) : Prop where
  queue : s'.queue = s.queue
  rows : ∀ r' ∈ s'.pendingPublish, ∃ r ∈ s.pendingPublish,
    r'.queueRow = r.queueRow ∧
      (r'.status = r.status ∨ r'.status = .pending ∧ r.status = .publishing)
  others : ∃ rows publishers, s' = { s with pendingPublish := rows, publishers := publishers }
  claims : ∀ p claim, (s'.publishers p).claim? = some claim → (s.publishers p).claim? = some claim
  builds : ∀ p claim build, s'.publishers p = .built claim build →
    s.publishers p = .built claim build

/-- The **kind** of a step. -/
inductive Move (s : State) : Action → State → Prop where
  | prepares (a : Action) (s' : State) (h : Prepares s s') : Move s a s'
  | admitted (now : Time) (req : SubmitRequest) (a : Admission) (ps : Patchset)
    (h : Admits s req a ps) : Move s (.submit now req) (admitted s now req.changeset a)
  | abandoned (now : Time) (id : ChangesetID) (c : Changeset) (hc : s.changesets.get id = some c)
    (hchild : hasActiveChild s id = false) (hsub : c.status ≠ .submitted) :
    Move s (.abandon now id)
      { s with changesets := s.changesets.set id { c with status := .abandoned, updatedAt := now } }
  | requeued (a : Action) (s' : State) (h : Requeues s s') : Move s a s'
  | claimed (p : PublisherID) (now : Time) (limit : Nat) (s' : State) (claim : PendingPublishClaim)
    (hidle : s.publishers p = .idle)
    (hclaim : claimPendingPublishBatch s now limit = some (s', claim)) :
    Move s (.claim p now limit) (s'.setStage p (.claimed claim))
  | built (p : PublisherID) (now : Time) (claim : PendingPublishClaim) (build : PendingPublishBuild)
    (hstage : s.publishers p = .claimed claim)
    (hbuild : buildPendingPublishBatch s now claim = .ok build) :
    Move s (.build p now) (s.setStage p (.built claim build))
  | published (p : PublisherID) (now : Time) (claim : PendingPublishClaim)
    (build : PendingPublishBuild) (hstage : s.publishers p = .built claim build)
    (hentries : build.entries ≠ []) (href : s.ref = claim.originalCommit)
    (hlock : lockPendingPublishChangesets s build.entries = .ok ()) :
    Move s (.finalize p now) ((publishBatch s now build).setStage p .idle)

theorem publishers_setStage (s : State) (p q : PublisherID) (stage : PublisherStage) :
    (s.setStage p stage).publishers q = if q = p then stage else s.publishers q := by
  simp only [State.setStage, Function.update_apply]

theorem requeues_setStage {p : PublisherID} {stage : PublisherStage}
    (hstage : stage = .idle ∨ ∃ claim, (s.publishers p).claim? = some claim ∧
      stage = .failed claim) :
    Requeues s (s.setStage p stage) where
  queue := rfl
  rows := fun r hr => ⟨r, hr, rfl, .inl rfl⟩
  others := ⟨s.pendingPublish, _, rfl⟩
  claims := by
    intro q claim h
    rw [publishers_setStage] at h
    split at h
    · rename_i hq
      subst hq
      obtain rfl | ⟨claim', hclaim, rfl⟩ := hstage
      · cases h
      · cases h
        exact hclaim
    · exact h
  builds := by
    intro q claim build h
    rw [publishers_setStage] at h
    split at h
    · obtain rfl | ⟨claim', -, rfl⟩ := hstage <;> cases h
    · exact h

theorem Requeues.trans {s₁ s₂ s₃ : State} (h₁ : Requeues s₁ s₂) (h₂ : Requeues s₂ s₃) :
    Requeues s₁ s₃ where
  queue := h₂.queue.trans h₁.queue
  rows := by
    intro r₃ hr₃
    obtain ⟨r₂, hr₂, hq₂, hst₂⟩ := h₂.rows r₃ hr₃
    obtain ⟨r₁, hr₁, hq₁, hst₁⟩ := h₁.rows r₂ hr₂
    refine ⟨r₁, hr₁, hq₂.trans hq₁, ?_⟩
    rcases hst₂ with h | ⟨hp, hpub⟩
    · rw [h]
      exact hst₁
    · rcases hst₁ with h | ⟨hp', -⟩
      · exact .inr ⟨hp, h ▸ hpub⟩
      · rw [hp'] at hpub
        cases hpub
  others := by
    obtain ⟨rows, publishers, rfl⟩ := h₁.others
    obtain ⟨rows', publishers', rfl⟩ := h₂.others
    exact ⟨rows', publishers', rfl⟩
  claims := fun p claim h => h₁.claims p claim (h₂.claims p claim h)
  builds := fun p claim build h => h₁.builds p claim build (h₂.builds p claim build h)

theorem requeues_rows {rows : List PendingPublish} {f : PendingPublish → PendingPublish}
    (hrows : rows = s.pendingPublish.map f)
    (hf : ∀ r, f r = r ∨ r.status = .publishing ∧ (f r).queueRow = r.queueRow ∧
      (f r).status = .pending) :
    Requeues s { s with pendingPublish := rows } where
  queue := by
    rw [State.queue, hrows, map_map]
    refine map_congr_left fun r _ => ?_
    dsimp only [Function.comp]
    rcases hf r with h | ⟨-, h, -⟩
    · rw [h]
    · exact h
  rows := by
    intro r' hr'
    rw [hrows] at hr'
    obtain ⟨r, hr, rfl⟩ := mem_map.mp hr'
    refine ⟨r, hr, ?_⟩
    rcases hf r with h | ⟨hst, h, hst'⟩
    · rw [h]
      exact ⟨rfl, .inl rfl⟩
    · exact ⟨h, .inr ⟨hst', hst⟩⟩
  others := ⟨rows, s.publishers, rfl⟩
  claims := fun _ _ h => h
  builds := fun _ _ _ h => h

theorem requeues_resetClaim (s : State) (now : Time) (claim : PendingPublishClaim) :
    Requeues s (resetClaim s now claim) := by
  refine requeues_rows rfl fun r => ?_
  split
  · rename_i h
    exact .inr ⟨h.2, rfl, rfl⟩
  · exact .inl rfl

theorem requeues_reap (s : State) (now : Time) :
    Requeues s (reapStalePendingPublishClaims s now) := by
  refine requeues_rows rfl fun r => ?_
  split
  · rename_i h
    exact .inr ⟨h.1, rfl, rfl⟩
  · exact .inl rfl

theorem Transition.move {a : Action} (h : Transition s a s') : Move s a s' := by
  cases h with
  | refused | setSlice => exact .prepares _ _ (OnlyPrepared.refl.prepares (.refl _) (.refl _))
  | putBlob => exact .prepares _ _ (OnlyPrepared.refl.prepares (.refl _) (extends_insertNew _ _ _))
  | create now id subject req hnew =>
    exact .prepares _ _ ((OnlyPrepared.set (.inr ⟨hnew, rfl, rfl⟩)).prepares (.refl _) (.refl _))
  | addPatchset now id expected patchset upload c baseTree v resultTree hc hab hsub hbase hv hresult
      hnew =>
    have hkept : c.Kept (c.withPatchset now patchset) := ⟨rfl, rfl, rfl, rfl, rfl⟩
    exact .prepares _ _ ((OnlyPrepared.set (.inl ⟨c, hc, hkept⟩)).prepares (extends_set hnew _) (.refl _))
  | approve now _ _ c _ hopen | reportCheckResult now _ _ _ _ c _ _ hopen =>
    have hset := OnlyPrepared.set (.inl ⟨c, (openPatchset_ok hopen).1, kept_clearRequirementBlock c now⟩)
    exact .prepares _ _ (hset.prepares (.refl _) (.refl _))
  | blocked now req reason heads => exact .prepares _ _ (prepares_blockSubmit s now _ reason heads)
  | admitted now req a ps hadmits => exact .admitted now req a ps hadmits
  | abandon now id c hc hchild hsub => exact .abandoned now id c hc hchild hsub
  | reap now => exact .requeued _ _ (requeues_reap s now)
  | claim p now limit s' claim hidle hclaim => exact .claimed p now limit s' claim hidle hclaim
  | build p now claim build hstage hbuild => exact .built p now claim build hstage hbuild
  | fail a p claim hstage => exact .requeued _ _ (requeues_setStage (.inr ⟨claim, hstage, rfl⟩))
  | reset a p now claim stage hstage hafter =>
    refine .requeued _ _ ((requeues_resetClaim s now claim).trans (requeues_setStage ?_))
    rcases hafter with h | h
    · exact .inl h
    · exact .inr ⟨claim, hstage, h⟩
  | publish p now claim build hstage hentries href hlock =>
    exact .published p now claim build hstage hentries href hlock
  | stop => exact .requeued _ _ (requeues_setStage (.inl rfl))

theorem step_move (s : State) (a : Action) : Move s a (step s a) := (step_transition s a).move

end GitSlice
