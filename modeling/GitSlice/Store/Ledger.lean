import GitSlice.Store.Move

/-! # What publishers hold
A publisher holds a claim and then a build while other transactions go on. What it holds stays true
because the store only grows around it: patchsets, blobs and commits are added and never changed,
rows are appended to the queue, and the ref moves to descendants (`Grows`). `ClaimSound` and
`BuildSound` are the facts about a claim and a build that this keeps, and `ClaimsSound` is the
invariant that every publisher's claim and build has them. -/

namespace GitSlice

open List GitSlice.Except

/-! ## Commits -/

namespace CommitID

/-- A commit with its ancestors, newest first. -/
def history : CommitID → List CommitID
  | .initial root => [.initial root]
  | .child parent root author message createdAt changedPaths =>
    .child parent root author message createdAt changedPaths :: parent.history

/-- A commit's row says what its id hashes. -/
def Describes : CommitID → Commit → Prop
  | .initial root, row => row = initialCommit root
  | .child parent root author message createdAt changedPaths, row =>
    row = ⟨[parent], root, author, message, createdAt, changedPaths⟩

theorem self_mem_history (c : CommitID) : c ∈ c.history := by
  cases c <;> simp [history]

variable {c d : CommitID}

theorem history_suffix_of_mem (h : d ∈ c.history) : d.history <:+ c.history := by
  induction c with
  | initial =>
    rw [history, mem_singleton] at h
    rw [h]
  | child parent root author message createdAt changedPaths ih =>
    rw [history, mem_cons] at h
    rcases h with rfl | h
    · exact suffix_rfl
    · exact (ih h).trans (suffix_cons _ _)

end CommitID

/-! ## Batches -/

/-- An entry of a build was **made** on a parent commit with a tree: its commit has that parent, and
its root is what the edits of the row's patchset make of that tree. -/
structure Made (s : State) (parent : CommitID) (n : Node) (e : PublishEntry) : Prop where
  base : e.baseCommit = parent
  commitId : e.commitId = .child parent e.commit.rootTree e.commit.author e.commit.message
    e.commit.createdAt e.commit.changedPaths
  parentIds : e.commit.parentIds = [parent]
  tree : ∃ ps edits, s.patchsets.get e.row.patchset = some ps ∧
    treeEditsFromPatchset s.blobs ps.fileEdits = .ok edits ∧
    applyEditSet n edits = .ok e.commit.rootTree ∧
    pathHeadMutationsForPatchsetRoot e.commit.rootTree ps.fileEdits = some e.mutations

/-- The entries of a build are made on one another. -/
def MadeOn (s : State) : CommitID → Node → List PublishEntry → Prop
  | _, _, [] => True
  | parent, n, e :: rest => Made s parent n e ∧ MadeOn s e.commitId e.commit.rootTree rest

variable {s : State} {parent : CommitID} {n : Node} {e : PublishEntry}

theorem Made.describes (h : Made s parent n e) : e.commitId.Describes e.commit := by
  have hparents := h.parentIds
  rw [h.commitId, CommitID.Describes, ← hparents]

variable {entries : List PublishEntry}

theorem MadeOn.history (h : MadeOn s parent n entries) :
    ((entries.getLast?.map PublishEntry.commitId).getD parent).history =
      (entries.map PublishEntry.commitId).reverse ++ parent.history := by
  induction entries generalizing parent n with
  | nil => rfl
  | cons e rest ih =>
    have hrest := ih h.2
    have hfirst : e.commitId.history = e.commitId :: parent.history := by
      rw [h.1.commitId]
      rfl
    rw [map_cons, reverse_cons, append_assoc, singleton_append, ← hfirst,
      ← hrest]
    cases rest <;> simp [List.getLast?_cons]

/-! ## What only grows -/

/-- The store has **grown**. -/
structure Grows (s s' : State) : Prop where
  patchsets : s.patchsets.Extends s'.patchsets
  blobs : s.blobs.Extends s'.blobs
  commits : s.commits.Extends s'.commits
  queue : s.queue.map QueueRow.claimed <+: s'.queue.map QueueRow.claimed
  ref : s.ref.history <:+ s'.ref.history

variable {blobs blobs' : Table BlobID Blob}

theorem uploadedEntry_extends (hb : blobs.Extends blobs') {f : UploadedFile} {file : FileEntry}
    (h : uploadedEntry blobs f = .ok file) : uploadedEntry blobs' f = .ok file := by
  rw [uploadedEntry] at h ⊢
  split at h
  · cases h
  · rename_i blob hget
    rw [hb _ _ hget]
    exact h

theorem treeEdit_extends (hb : blobs.Extends blobs') {e : FileEdit} {te : TreeEdit}
    (h : treeEdit blobs e = .ok te) : treeEdit blobs' e = .ok te := by
  cases e with
  | upsert =>
    obtain ⟨file, hfile, h⟩ := bind_eq_ok.mp h
    exact bind_eq_ok.mpr ⟨file, uploadedEntry_extends hb hfile, h⟩
  | delete | mkdir | rename | copy => exact h

theorem treeEditsFromPatchset_extends (hb : blobs.Extends blobs') {edits : List FileEdit}
    {tes : List TreeEdit} (h : treeEditsFromPatchset blobs edits = .ok tes) :
    treeEditsFromPatchset blobs' edits = .ok tes := by
  unfold treeEditsFromPatchset at h ⊢
  induction edits generalizing tes with
  | nil => exact h
  | cons e edits ih =>
    rw [mapM_cons] at h ⊢
    obtain ⟨te, hte, h⟩ := bind_eq_ok.mp h
    obtain ⟨tes', htes, h⟩ := bind_eq_ok.mp h
    exact bind_eq_ok.mpr ⟨te, treeEdit_extends hb hte,
      bind_eq_ok.mpr ⟨tes', ih htes, h⟩⟩

variable {s' : State}

theorem Made.mono (hg : Grows s s') (h : Made s parent n e) : Made s' parent n e := by
  obtain ⟨ps, edits, hps, hedits, hroot, hmut⟩ := h.tree
  exact ⟨h.base, h.commitId, h.parentIds, ps, edits, hg.patchsets _ _ hps,
    treeEditsFromPatchset_extends hg.blobs hedits, hroot, hmut⟩

theorem MadeOn.mono (hg : Grows s s') (h : MadeOn s parent n entries) :
    MadeOn s' parent n entries := by
  induction entries generalizing parent n with
  | nil => trivial
  | cons e rest ih => exact ⟨h.1.mono hg, ih h.2⟩

theorem rootTree_mono (hg : Grows s s') {c : CommitID} (h : s.rootTree c = some n) :
    s'.rootTree c = some n := by
  rw [State.rootTree, Option.map_eq_some_iff] at h ⊢
  obtain ⟨row, hrow, hn⟩ := h
  exact ⟨row, hg.commits _ _ hrow, hn⟩

/-! ## Claims and builds -/

/-- What stays true of a **claim**. -/
structure ClaimSound (s : State) (claim : PendingPublishClaim) : Prop where
  rows : claim.rows.Sublist (s.queue.map QueueRow.claimed)
  original : claim.originalCommit ∈ s.ref.history
  rootTree : s.rootTree claim.originalCommit = some claim.rootTree

/-- What stays true of a **build**. -/
structure BuildSound (s : State) (claim : PendingPublishClaim) (build : PendingPublishBuild) : Prop where
  rows : (build.entries.map PublishEntry.row).Sublist claim.rows
  made : MadeOn s claim.originalCommit claim.rootTree build.entries

variable {claim : PendingPublishClaim}

theorem ClaimSound.mono (hg : Grows s s') (h : ClaimSound s claim) : ClaimSound s' claim where
  rows := h.rows.trans hg.queue.sublist
  original := hg.ref.subset h.original
  rootTree := rootTree_mono hg h.rootTree

variable {build : PendingPublishBuild}

theorem BuildSound.mono (hg : Grows s s') (h : BuildSound s claim build) :
    BuildSound s' claim build where
  rows := h.rows
  made := h.made.mono hg

/-- Publishers hold sound claims and builds. -/
structure ClaimsSound (s : State) : Prop where
  claims : ∀ p claim, (s.publishers p).claim? = some claim → ClaimSound s claim
  builds : ∀ p claim build, s.publishers p = .built claim build → BuildSound s claim build

theorem ClaimsSound.of_built (h : ClaimsSound s) {p : PublisherID}
    (hstage : s.publishers p = .built claim build) :
    ClaimSound s claim ∧ BuildSound s claim build :=
  ⟨h.claims p claim (by rw [hstage]; rfl), h.builds p claim build hstage⟩

theorem made_publishEntry {p : Publishable} (hp : p.ReadIn s) {root : Node}
    (hroot : applyEditSet n p.treeEdits = .ok root) {mutations : List PathHeadMutation}
    (hmut : pathHeadMutationsForPatchsetRoot root p.patchset.fileEdits = some mutations)
    (parent : CommitID) (createdAt : Time) :
    Made s parent n (publishEntry parent createdAt p root mutations) where
  base := by rw [publishEntry]
  commitId := by rw [publishEntry, publishedCommitID, publishedCommit]
  parentIds := by rw [publishEntry, publishedCommit]
  tree := by
    refine ⟨p.patchset, p.treeEdits, ?_, hp.treeEdits, ?_, ?_⟩
    · rw [publishEntry]
      exact hp.patchset
    · rw [publishEntry]
      exact hroot
    · rw [publishEntry]
      exact hmut

theorem publishEntries_made {entries : List Publishable} {createdAt : Time} {roots : List Node}
    {out : List PublishEntry} (hread : ∀ p ∈ entries, p.ReadIn s)
    (hroots : applyEditChain n (entries.map Publishable.treeEdits) = .ok roots)
    (h : publishEntries parent createdAt (entries.zip roots) = .ok out) :
    MadeOn s parent n out ∧ out.map PublishEntry.row = entries.map Publishable.row := by
  induction entries generalizing parent n createdAt roots out with
  | nil =>
    cases h
    exact ⟨trivial, rfl⟩
  | cons p entries ih =>
    obtain ⟨root, hroot, hroots⟩ := bind_eq_ok.mp hroots
    obtain ⟨roots', hroots', hcons⟩ := bind_eq_ok.mp hroots
    cases hcons
    rw [zip_cons_cons, publishEntries] at h
    split at h
    · cases h
    · rename_i mutations hmut
      obtain ⟨out', hout', hcons⟩ := bind_eq_ok.mp h
      cases hcons
      have hp := hread p mem_cons_self
      obtain ⟨hmade, hrows⟩ := ih (fun q hq => hread q (mem_cons_of_mem p hq)) hroots' hout'
      refine ⟨⟨made_publishEntry hp hroot hmut parent createdAt, hmade⟩, ?_⟩
      rw [map_cons, map_cons, hrows, publishEntry]

variable {now : Time}

theorem buildPendingPublishBatch_ok (h : buildPendingPublishBatch s now claim = .ok build) :
    BuildSound s claim build ∧
      ∀ row ∈ claim.rows, row ∈ build.entries.map PublishEntry.row ∨
        ∃ c, s.changesets.get row.changeset = some c ∧ c.status ≠ .pendingPublish := by
  obtain ⟨⟨entries, skipped⟩, hentries, h⟩ := bind_eq_ok.mp h
  obtain ⟨roots, hroots, h⟩ := bind_eq_ok.mp h
  obtain ⟨out, hout, h⟩ := bind_eq_ok.mp h
  cases h
  obtain ⟨hsub, hread, hcover⟩ := publishableRows_ok hentries
  obtain ⟨hmade, hrows⟩ := publishEntries_made hread (fromTree_ok hroots) hout
  exact ⟨⟨hrows ▸ hsub, hmade⟩, hrows ▸ hcover⟩

/-! ## The store grows -/

theorem Grows.of_eq (hps : s.patchsets.Extends s'.patchsets) (hb : s.blobs.Extends s'.blobs)
    (hc : s'.commits = s.commits) (hq : s'.queue = s.queue) (hr : s'.ref = s.ref) : Grows s s' where
  patchsets := hps
  blobs := hb
  commits := hc ▸ .refl _
  queue := hq ▸ prefix_rfl
  ref := hr ▸ suffix_rfl

theorem extends_insertPublishedCommits (commits : Table CommitID Commit)
    (entries : List PublishEntry) : commits.Extends (insertPublishedCommits commits entries) := by
  induction entries generalizing commits with
  | nil => exact .refl _
  | cons e rest ih => exact (Table.extends_insertNew commits e.commitId e.commit).trans (ih _)

@[simp] theorem claimed_mark (entries : List PublishEntry) (r : QueueRow) :
    (r.mark entries).claimed = r.claimed := by
  rw [QueueRow.mark]
  split <;> rfl

theorem changeset_mark (entries : List PublishEntry) (r : QueueRow) :
    (r.mark entries).changeset = r.changeset :=
  congrArg ClaimedRow.changeset (claimed_mark entries r)

theorem sequence_mark (entries : List PublishEntry) (r : QueueRow) :
    (r.mark entries).sequence = r.sequence :=
  congrArg ClaimedRow.sequence (claimed_mark entries r)

theorem queue_claim {limit : Nat} (h : claimPendingPublishBatch s now limit = some (s', claim)) :
    s'.queue = s.queue := by
  obtain ⟨-, -, -, rfl⟩ := claimPendingPublishBatch_some h
  rw [State.queue, map_map]
  refine map_congr_left fun r _ => ?_
  dsimp only [Function.comp]
  split <;> rfl

section

variable (hmade : MadeOn s claim.originalCommit claim.rootTree build.entries)
  (href : s.ref = claim.originalCommit)
include hmade href

variable (now) in
theorem history_publishBatch : (publishBatch s now build).ref.history =
    (build.entries.map PublishEntry.commitId).reverse ++ s.ref.history := by
  have hhistory := hmade.history
  rw [← href] at hhistory
  exact hhistory

variable (now) in
theorem grows_publishBatch : Grows s (publishBatch s now build) where
  patchsets := .refl _
  blobs := .refl _
  commits := extends_insertPublishedCommits _ _
  queue := by
    simp [Function.comp_def]
  ref := ⟨_, (history_publishBatch now hmade href).symm⟩

end

variable {a : Action}

theorem Move.grows (h : Move s a s') (hclaims : ClaimsSound s) : Grows s s' := by
  cases h with
  | prepares _ _ h =>
    exact .of_eq h.patchsets h.blobs h.commits h.queue h.ref
  | admitted =>
    exact ⟨.refl _, .refl _, .refl _, by simp, suffix_rfl⟩
  | abandoned | built => exact .of_eq (.refl _) (.refl _) rfl rfl rfl
  | requeued _ _ h =>
    have hqueue := h.queue
    obtain ⟨rows, publishers, rfl⟩ := h.others
    exact .of_eq (.refl _) (.refl _) rfl hqueue rfl
  | claimed p now limit s' claim hidle hclaim =>
    have hqueue := queue_claim hclaim
    obtain ⟨-, -, -, rfl⟩ := claimPendingPublishBatch_some hclaim
    exact .of_eq (.refl _) (.refl _) rfl hqueue rfl
  | published p now claim build hstage hentries href =>
    obtain ⟨hps, hb, hc, hq, hr⟩ :=
      grows_publishBatch now (hclaims.builds p claim build hstage).made href
    exact ⟨hps, hb, hc, hq, hr⟩

/-! ## Publishers hold sound claims and builds -/

theorem claimedRows_sublist (s : State) (limit : Nat) :
    (claimedRows s limit).Sublist (s.queue.map QueueRow.claimed) := by
  have hsub := (take_sublist (if limit = 0 then 64 else limit)
    (s.pendingPublish.filter fun r => r.status = .pending)).trans filter_sublist
  rw [State.queue, map_map]
  exact hsub.map _

theorem ClaimsSound.of_grows (h : ClaimsSound s) (hg : Grows s s')
    (hclaims : ∀ p claim, (s'.publishers p).claim? = some claim →
      (s.publishers p).claim? = some claim ∨ ClaimSound s' claim)
    (hbuilds : ∀ p claim build, s'.publishers p = .built claim build →
      s.publishers p = .built claim build ∨ BuildSound s' claim build) : ClaimsSound s' where
  claims := fun p claim hc => (hclaims p claim hc).elim (fun h' => (h.claims p claim h').mono hg) id
  builds := fun p claim build hb =>
    (hbuilds p claim build hb).elim (fun h' => (h.builds p claim build h').mono hg) id

theorem ClaimsSound.of_setStage (h : ClaimsSound s) {p : PublisherID} {stage : PublisherStage}
    (hg : Grows s (s'.setStage p stage)) (hpublishers : s'.publishers = s.publishers)
    (hclaim : ∀ claim, stage.claim? = some claim →
      (s.publishers p).claim? = some claim ∨ ClaimSound (s'.setStage p stage) claim)
    (hbuild : ∀ claim build, stage = .built claim build →
      BuildSound (s'.setStage p stage) claim build) :
    ClaimsSound (s'.setStage p stage) := by
  refine h.of_grows hg (fun q claim hq => ?_) fun q claim build hq => ?_
  · rw [publishers_setStage] at hq
    split_ifs at hq with hqp
    · exact hqp ▸ hclaim claim hq
    · exact .inl (hpublishers ▸ hq)
  · rw [publishers_setStage] at hq
    split_ifs at hq
    · exact .inr (hbuild claim build hq)
    · exact .inl (hpublishers ▸ hq)

theorem Move.claimsSound (h : Move s a s') (hs : ClaimsSound s) : ClaimsSound s' := by
  have hg := h.grows hs
  cases h with
  | prepares _ _ h =>
    exact hs.of_grows hg (fun _ _ hq => .inl (h.publishers ▸ hq)) fun _ _ _ hq => .inl
      (h.publishers ▸ hq)
  | admitted | abandoned => exact hs.of_grows hg (fun _ _ => .inl) fun _ _ _ => .inl
  | requeued _ _ h =>
    exact hs.of_grows hg (fun q c hq => .inl (h.claims q c hq)) fun q c b hq => .inl
      (h.builds q c b hq)
  | claimed p now limit s' claim hidle hclaim =>
    have hqueue := queue_claim hclaim
    obtain ⟨hrows, horiginal, hroot, rfl⟩ := claimPendingPublishBatch_some hclaim
    refine hs.of_setStage hg rfl (fun claim' hclaim' => .inr ?_) (fun _ _ h => nomatch h)
    cases hclaim'
    refine ⟨?_, ?_, ?_⟩
    · rw [hrows, queue_setStage, hqueue]
      exact claimedRows_sublist s limit
    · rw [horiginal]
      exact CommitID.self_mem_history _
    · rw [horiginal]
      exact hroot
  | built p now claim build hstage hbuild =>
    refine hs.of_setStage hg rfl (fun claim' hclaim' => .inl (by rw [hstage]; exact hclaim')) ?_
    rintro claim' build' ⟨⟩
    exact (buildPendingPublishBatch_ok hbuild).1.mono hg
  | published =>
    exact hs.of_setStage hg rfl (fun _ h => nomatch h) fun _ _ h => nomatch h

theorem claimsSound_start (root : Node) : ClaimsSound (State.start root) where
  claims := fun _ _ h => by cases h
  builds := fun _ _ _ h => by cases h

end GitSlice
