import GitSlice.Library.Machine
import GitSlice.Store.Publish

/-! # The store as a machine
The transactions of the store as the steps of one machine: an action names the transaction and
brings what the state does not determine, the time and the fresh identifiers. Publishers run
`PublishPending` in steps of their own, any number of them, and one may fail or stop between any two
steps. A run is a list of actions (`Machine.run step`), so a statement about every list of actions
is one about every interleaving.

`step_transition` says once what a step can do, as an inductive relation with a case for each
transaction that succeeds. The invariants are proved by cases on it. -/

namespace GitSlice

/-- A transaction of the store. -/
inductive Action where
  /-- A slice is created or its definition changed. -/
  | setSlice (id : SliceID) (slice : Slice)
  /-- A blob is uploaded. -/
  | putBlob (id : BlobID) (blob : Blob)
  | create (now : Time) (id : ChangesetID) (subject : Subject) (req : NewChangeset)
  | addPatchset (now : Time) (id : ChangesetID) (expected : Option PatchsetID) (patchset : PatchsetID)
      (upload : PatchsetUpload)
  | approve (now : Time) (id : ChangesetID) (subject : Subject)
  | reportCheckResult (now : Time) (id : ChangesetID) (subject : Subject) (check status : String)
  /-- `submitOnce`. -/
  | submit (now : Time) (req : SubmitRequest)
  | abandon (now : Time) (id : ChangesetID)
  /-- `reapStalePendingPublishClaims`. -/
  | reap (now : Time)
  /-- `claimPendingPublishBatch`. -/
  | claim (p : PublisherID) (now : Time) (limit : Nat)
  /-- `buildPendingPublishBatch`. -/
  | build (p : PublisherID) (now : Time)
  /-- `finalizePendingPublishBatch`. -/
  | finalize (p : PublisherID) (now : Time)
  /-- A publisher's transaction fails, for a reason outside the model. -/
  | fail (p : PublisherID)
  /-- `releasePendingPublishClaims`. -/
  | release (p : PublisherID) (now : Time)
  /-- A publisher stops. -/
  | stop (p : PublisherID)
deriving DecidableEq

/-- The state with a publisher at another stage. -/
def State.setStage (s : State) (p : PublisherID) (stage : PublisherStage) : State :=
  { s with publishers := Function.update s.publishers p stage }

/-- The state after a transaction that changes nothing when it fails. -/
def commitOr (s : State) : Except StoreError State → State
  | .ok s' => s'
  | .error _ => s

/-- The same for a transaction with an answer. -/
def commitOrWith {α : Type} (s : State) : Except StoreError (State × α) → State
  | .ok (s', _) => s'
  | .error _ => s

/-- A publisher's build. -/
def buildStep (s : State) (p : PublisherID) (now : Time) : State :=
  match s.publishers p with
  | .claimed claim =>
    match buildPendingPublishBatch s now claim with
    | .ok build => s.setStage p (.built claim build)
    | .error _ => s.setStage p (.failed claim)
  | _ => s

/-- A publisher's finalize. -/
def finalizeStep (s : State) (p : PublisherID) (now : Time) : State :=
  match s.publishers p with
  | .built claim build =>
    match finalizePendingPublishBatch s now claim build with
    | (s', .ok ()) => s'.setStage p .idle
    | (s', .error _) => s'.setStage p (.failed claim)
  | _ => s

/-- One transaction. -/
def step (s : State) : Action → State
  | .setSlice id slice => { s with slices := s.slices.set id slice }
  | .putBlob id blob => { s with blobs := s.blobs.insertNew id blob }
  | .create now id subject req => commitOr s (create s now id subject req)
  | .addPatchset now id expected patchset upload =>
    commitOrWith s (addPatchset s now id expected patchset upload)
  | .approve now id subject => commitOrWith s (approve s now id subject)
  | .reportCheckResult now id subject check status =>
    commitOrWith s (reportCheckResult s now id subject check status)
  | .submit now req => (submitOnce s now req).1
  | .abandon now id => commitOr s (abandon s now id)
  | .reap now => reapStalePendingPublishClaims s now
  | .claim p now limit =>
    match s.publishers p, claimPendingPublishBatch s now limit with
    | .idle, some (s', claim) => s'.setStage p (.claimed claim)
    | _, _ => s
  | .build p now => buildStep s p now
  | .finalize p now => finalizeStep s p now
  | .fail p =>
    match s.publishers p with
    | .claimed claim | .built claim _ => s.setStage p (.failed claim)
    | _ => s
  | .release p now =>
    match s.publishers p with
    | .failed claim => (resetClaim s now claim).setStage p .idle
    | _ => s
  | .stop p => s.setStage p .idle

/-! ## What a step can do -/

/-- The claim a publisher holds. -/
def PublisherStage.claim? : PublisherStage → Option PendingPublishClaim
  | .idle => none
  | .claimed claim | .built claim _ | .failed claim => some claim

/-- A **transition**: what a transaction does when it succeeds, with what it has checked. -/
inductive Transition (s : State) : Action → State → Prop where
  | refused (a : Action) : Transition s a s
  | setSlice (id : SliceID) (slice : Slice) :
    Transition s (.setSlice id slice) { s with slices := s.slices.set id slice }
  | putBlob (id : BlobID) (blob : Blob) :
    Transition s (.putBlob id blob) { s with blobs := s.blobs.insertNew id blob }
  | create (now : Time) (id : ChangesetID) (subject : Subject) (req : NewChangeset)
    (hnew : s.changesets.get id = none) :
    Transition s (.create now id subject req)
      { s with changesets := s.changesets.set id (newChangeset s now subject req) }
  | addPatchset (now : Time) (id : ChangesetID) (expected : Option PatchsetID) (patchset : PatchsetID)
    (upload : PatchsetUpload) (c : Changeset) (baseTree : Node) (v : ValidatedEdits)
    (resultTree : Node) (hc : s.changesets.get id = some c) (hab : c.status ≠ .abandoned)
    (hsub : c.status ≠ .submitted) (hbase : baseTreeForPatchset s upload.base = .ok baseTree)
    (hv : validateFileEdits s.blobs upload.includedPaths upload.readablePaths baseTree
      upload.fileEdits = .ok v)
    (hresult : resultTreeForPatchset s.blobs baseTree v.fileEdits = .ok resultTree)
    (hnew : s.patchsets.get patchset = none) :
    Transition s (.addPatchset now id expected patchset upload)
      { s with
        patchsets := s.patchsets.set patchset
          (newPatchset id (c.currentNumber + 1) upload v baseTree resultTree),
        changesets := s.changesets.set id (c.withPatchset now patchset) }
  | approve (now : Time) (id : ChangesetID) (subject : Subject) (c : Changeset) (ps : PatchsetID)
    (hopen : openPatchset s id = .ok (c, ps)) (hsubject : trimSpace subject ≠ "") :
    Transition s (.approve now id subject)
      { s with
        approvals := addApproval s.approvals ⟨id, ps, trimSpace subject⟩,
        changesets := s.changesets.set id (c.clearRequirementBlock now) }
  | reportCheckResult (now : Time) (id : ChangesetID) (subject : Subject) (check status : String)
    (c : Changeset) (ps : PatchsetID) (status' : String) (hopen : openPatchset s id = .ok (c, ps))
    (hstatus : normalizeCheckStatus status = some status') :
    Transition s (.reportCheckResult now id subject check status)
      { s with
        checkResults := s.checkResults.set (id, ps, trimSpace check) status',
        changesets := s.changesets.set id (c.clearRequirementBlock now) }
  | blocked (now : Time) (req : SubmitRequest) (reason : String) (heads : Table Path PathHead)
    (hstop : admission s req = .error (.blocked reason heads)) :
    Transition s (.submit now req) (blockSubmit s now req.changeset reason heads)
  | admitted (now : Time) (req : SubmitRequest) (a : Admission) (ps : Patchset)
    (hadmits : Admits s req a ps) :
    Transition s (.submit now req) (admitted s now req.changeset a)
  | abandon (now : Time) (id : ChangesetID) (c : Changeset) (hc : s.changesets.get id = some c)
    (hchild : hasActiveChild s id = false) (hsub : c.status ≠ .submitted) :
    Transition s (.abandon now id)
      { s with changesets := s.changesets.set id { c with status := .abandoned, updatedAt := now } }
  | reap (now : Time) : Transition s (.reap now) (reapStalePendingPublishClaims s now)
  | claim (p : PublisherID) (now : Time) (limit : Nat) (s' : State) (claim : PendingPublishClaim)
    (hidle : s.publishers p = .idle)
    (hclaim : claimPendingPublishBatch s now limit = some (s', claim)) :
    Transition s (.claim p now limit) (s'.setStage p (.claimed claim))
  | build (p : PublisherID) (now : Time) (claim : PendingPublishClaim) (build : PendingPublishBuild)
    (hstage : s.publishers p = .claimed claim)
    (hbuild : buildPendingPublishBatch s now claim = .ok build) :
    Transition s (.build p now) (s.setStage p (.built claim build))
  | fail (a : Action) (p : PublisherID) (claim : PendingPublishClaim)
    (hstage : (s.publishers p).claim? = some claim) : Transition s a (s.setStage p (.failed claim))
  | reset (a : Action) (p : PublisherID) (now : Time) (claim : PendingPublishClaim)
    (stage : PublisherStage) (hstage : (s.publishers p).claim? = some claim)
    (hafter : stage = .idle ∨ stage = .failed claim) :
    Transition s a ((resetClaim s now claim).setStage p stage)
  | publish (p : PublisherID) (now : Time) (claim : PendingPublishClaim) (build : PendingPublishBuild)
    (hstage : s.publishers p = .built claim build) (hentries : build.entries ≠ [])
    (href : s.ref = claim.originalCommit)
    (hlock : lockPendingPublishChangesets s build.entries = .ok ()) :
    Transition s (.finalize p now) ((publishBatch s now build).setStage p .idle)
  | stop (p : PublisherID) : Transition s (.stop p) (s.setStage p .idle)

variable (s : State)

theorem submit_transition (now : Time) (req : SubmitRequest) :
    Transition s (.submit now req) (submitOnce s now req).1 := by
  obtain h | ⟨reason, heads, hstop, h⟩ | ⟨a, ps, hadmits, h⟩ := submitOnce_cases s now req
  · rw [h]
    exact .refused _
  · rw [h]
    exact .blocked now req reason heads hstop
  · rw [h]
    exact .admitted now req a ps hadmits

variable (p : PublisherID)

theorem build_transition (now : Time) : Transition s (.build p now) (buildStep s p now) := by
  unfold buildStep
  split
  · rename_i claim hstage
    split
    · rename_i build hbuild
      exact .build p now claim build hstage hbuild
    · exact .fail _ p claim (by rw [hstage]; rfl)
  · exact .refused _

theorem finalize_transition (now : Time) :
    Transition s (.finalize p now) (finalizeStep s p now) := by
  unfold finalizeStep
  split
  · rename_i claim build hstage
    have hclaim : (s.publishers p).claim? = some claim := by
      rw [hstage]
      rfl
    obtain ⟨e, h⟩ | ⟨r, h⟩ | ⟨hentries, href, hlock, h⟩ :=
      finalizePendingPublishBatch_cases s now claim build
    · rw [h]
      exact .fail _ p claim hclaim
    · rw [h]
      rcases r with e | ⟨⟩
      · exact .reset _ p now claim _ hclaim (.inr rfl)
      · exact .reset _ p now claim _ hclaim (.inl rfl)
    · rw [h]
      exact .publish p now claim build hstage hentries href hlock
  · exact .refused _

variable {s} {a : Action}

theorem Transition.commitOr {x : Except StoreError State}
    (h : ∀ s', x = .ok s' → Transition s a s') :
    Transition s a (commitOr s x) := by
  cases x with
  | error => exact .refused a
  | ok s' => exact h s' rfl

theorem Transition.commitOrWith {α : Type} {x : Except StoreError (State × α)}
    (h : ∀ r, x = .ok r → Transition s a r.1) : Transition s a (commitOrWith s x) := by
  cases x with
  | error => exact .refused a
  | ok r => exact h r rfl

/-- **What a step can do.** -/
theorem step_transition (s : State) (a : Action) : Transition s a (step s a) := by
  cases a with
  | setSlice id slice => exact .setSlice id slice
  | putBlob id blob => exact .putBlob id blob
  | create now id subject req =>
    refine .commitOr fun s' h => ?_
    obtain ⟨hnew, rfl⟩ := create_ok h
    exact .create now id subject req hnew
  | addPatchset now id expected patchset upload =>
    refine .commitOrWith fun r h => ?_
    obtain ⟨c, baseTree, v, resultTree, hc, hab, hsub, hbase, hv, hresult, hs⟩ := addPatchset_ok h
    obtain ⟨hs, -⟩ | ⟨-, hnew, hs⟩ := hs
    · rw [hs]
      exact .refused _
    · rw [hs]
      exact .addPatchset now id expected patchset upload c baseTree v resultTree hc hab hsub hbase hv hresult
        hnew
  | approve now id subject =>
    rw [step]
    refine .commitOrWith fun r h => ?_
    obtain ⟨c, hopen, hsubject, hs⟩ := approve_ok h
    rw [hs]
    exact .approve now id subject c r.2 hopen hsubject
  | reportCheckResult now id subject check status =>
    rw [step]
    refine .commitOrWith fun r h => ?_
    obtain ⟨c, status', hopen, hstatus, hs⟩ := reportCheckResult_ok h
    rw [hs]
    exact .reportCheckResult now id subject check status c r.2 status' hopen hstatus
  | submit now req => exact submit_transition s now req
  | abandon now id =>
    refine .commitOr fun s' h => ?_
    obtain ⟨c, hc, hchild, hsub, rfl⟩ := abandon_ok h
    exact .abandon now id c hc hchild hsub
  | reap now => exact .reap now
  | claim p now limit =>
    simp only [step]
    split
    · rename_i hidle hclaim
      exact .claim p now limit _ _ hidle hclaim
    · exact .refused _
  | build p now => exact build_transition s p now
  | finalize p now => exact finalize_transition s p now
  | fail p =>
    simp only [step]
    split
    · rename_i claim hstage
      exact .fail _ p claim (by rw [hstage]; rfl)
    · rename_i claim build hstage
      exact .fail _ p claim (by rw [hstage]; rfl)
    · exact .refused _
  | release p now =>
    simp only [step]
    split
    · rename_i claim hstage
      exact .reset _ p now claim .idle (by rw [hstage]; rfl) (.inl rfl)
    · exact .refused _
  | stop p => exact .stop p

end GitSlice
