import GitSlice.Store.Step

/-! # The calls that submit
`SubmitChangeset` and `SubmitStack` (`service/changeset.go`, `changeset_stack.go`,
`submit_merge.go`, `trigger_submit.go`) as machines over the store. A call reads the changeset,
computes what submit needs besides the stored results (`submitExtras`), and runs the submit
transaction; refused for a stale base it merges the changeset onto the latest base and submits the
merge, up to eight times. Between any two of these steps other calls and publishers run, and the
call goes on with what it has read.

The state of the service (`Service`) is the store with the stages of its calls, on any number of
servers. `SubmitStage.submission` is the request a call is about to make to the store.
`serve_serving` says once what a step can do: a transaction of another call, a read of a call, its
submission, or the upload of a merge. -/

namespace GitSlice

/-! ## What is outside the model -/

/-- The merge of a patchset onto another commit (`rebaseEdits`): the edits, the paths in conflict,
and the merged contents it stores. -/
structure Rebased where
  fileEdits : List FileEdit
  conflicts : List Path
  /-- The contents. -/
  blobs : List (BlobID × Blob)
deriving DecidableEq

/-- A **server**: what its calls take from code outside the model. -/
structure Server where
  /-- `canAuthorizeAccount` for `ActionAdmin`: the subject is an owner or admin of the account. -/
  isAdmin : Subject → String → Bool
  /-- `checks.ResolvePlan`: the checks that the checks.yaml files skip for a patchset. -/
  planSkipped : Slice → Patchset → Except StoreError (List String)
  /-- `triggers.CheckSkipped` on the target ref's tree: only a trigger reports the check, and none
  would for the patchset. -/
  triggerSkipped : Node → String → String → Patchset → Except StoreError Bool
  /-- `rebaseEdits`. -/
  rebase : State → Changeset → Patchset → CommitID → Except StoreError Rebased

/-! ## What a call reads -/

/-- A changeset as `Get` returns it, with its patchsets by number. -/
structure ChangesetView where
  id : ChangesetID
  row : Changeset
  /-- The account of its slice. -/
  account : String
  patchsets : List (PatchsetID × Patchset)
deriving DecidableEq

/-- The patchsets of a changeset. -/
def listPatchsets (s : State) (id : ChangesetID) : List (PatchsetID × Patchset) :=
  (s.patchsets.rows.filter fun r => r.2.changeset =
    id).insertionSort fun r r' => r.2.number ≤ r'.2.number

/-- `Get`. -/
def getChangeset (s : State) (id : ChangesetID) : Option ChangesetView :=
  (s.changesets.get id).map fun c =>
    ⟨id, c, ((s.slices.get c.slice).map Slice.account).getD "", listPatchsets s id⟩

/-- The current one of a changeset that was read. -/
def ChangesetView.currentPatchset (cs : ChangesetView) : Option (PatchsetID × Patchset) :=
  (cs.patchsets.find? fun r => some r.1 = cs.row.currentPatchset).or cs.patchsets.getLast?

/-! ## What submit needs besides the stored results -/

/-- The path of a patchset that is in a `.gitslice` folder: one it changes, or one an edit starts
from. -/
def Patchset.touched (ps : Patchset) : Option Path :=
  (ps.changedPaths.find? touchesGitslice).or
    ((ps.fileEdits.flatMap fun e =>
      match e with
      | .rename old _ | .copy old _ => [old]
      | _ => []).find? touchesGitslice)

/-- An admin has to approve what touches `.gitslice`. -/
def requireGitsliceApproval (srv : Server) (s : State) (cs : ChangesetView) :
    Except StoreError Unit :=
  match cs.currentPatchset with
  | none => .ok ()
  | some (id, ps) =>
    match ps.touched with
    | none => .ok ()
    | some p =>
      if srv.isAdmin cs.row.author cs.account then .ok ()
      else if (approvalSubjects s cs.id id).any fun x => x ≠ cs.row.author && srv.isAdmin x cs.account then
        .ok ()
      else
        .error (.conflict (renderPath p ++ " is in a .gitslice folder, which decides what code runs " ++
          "with which secrets: an owner or admin of " ++ cs.account ++
            " must approve this patchset"))

/-- The names of the required checks. -/
def Slice.checkNames (slice : Slice) : List String :=
  (slice.requiredChecks.map trimSpace).filter fun name => name ≠ ""

/-- `skippedRequiredCheckStatuses`, by the names of the checks. -/
def skippedRequiredChecks (srv : Server) (s : State) (cs : ChangesetView) :
    Except StoreError (List String) :=
  match cs.currentPatchset with
  | none => .ok []
  | some (_, ps) =>
    match s.slices.get cs.row.slice with
    | none => .error .notFound
    | some slice =>
      if slice.requiredChecks = [] then .ok []
      else do
        let skipped ← srv.planSkipped slice ps
        return skipped.filter fun name => name ∈ slice.checkNames

/-- A row of `check_runs`: the changeset, the patchset and the name of the check. -/
abbrev CheckRun := ChangesetID × PatchsetID × String

/-- The required checks that triggers skip. -/
def skippedTriggerChecks (srv : Server) (s : State) (runs : List CheckRun) (cs : ChangesetView) :
    Except StoreError (List String) :=
  match cs.currentPatchset with
  | none => .ok []
  | some (id, ps) =>
    match s.slices.get cs.row.slice with
    | none => .error .notFound
    | some slice =>
      if slice.requiredChecks = [] then .ok []
      else
        match s.rootTree s.ref with
        | none => .error .notFound
        | some tree =>
          (slice.checkNames.filter fun name => (cs.id, id, name) ∉ runs).filterM fun name =>
            srv.triggerSkipped tree cs.account name ps

/-- `submitExtras`: the results to count besides the stored ones. -/
def submitExtras (srv : Server) (s : State) (runs : List CheckRun) (cs : ChangesetView) :
    Except StoreError (List (String × String)) := do
  requireGitsliceApproval srv s cs
  let skipped ← skippedRequiredChecks srv s cs
  let triggers ← skippedTriggerChecks srv s runs cs
  return (skipped ++ triggers.filter fun name => name ∉ skipped).map fun name => (name, "pass")

/-! ## The stages of a call -/

/-- A submit by a client: `SubmitChangeset`, or `SubmitStack` for one entry of the stack. -/
structure SubmitCall where
  /-- The caller. -/
  subject : Subject
  changeset : ChangesetID
  /-- The patchset the request names. -/
  expected : Option PatchsetID
  /-- Whether it is an entry of a `SubmitStack`. -/
  stack : Bool
deriving DecidableEq

/-- The patchset a submit names to the store. -/
def acceptedExpectedPatchset (cs : ChangesetView) (expected : Option PatchsetID) :
    Option PatchsetID :=
  match expected, cs.currentPatchset with
  | some e, some (id, ps) =>
    if e ≠ id ∧ ps.kind = submitMergeKind ∧
        (cs.patchsets.zip cs.patchsets.tail).any fun r => r.1.1 = e && r.2.1 = id then some id
    else some e
  | _, _ => expected

/-- The patchset the first try of a call names to the store. -/
def SubmitCall.firstExpected (call : SubmitCall) (cs : ChangesetView) : Option PatchsetID :=
  if call.stack then cs.row.currentPatchset else acceptedExpectedPatchset cs call.expected

/-- The refusal that a merge can mend. -/
def isStaleBase : StoreError → Bool
  | .conflict reason => decide (staleBaseReason.toList <:+: reason.toList)
  | _ => false

/-- How often a submit may merge. -/
def mergeOnSubmitAttempts : Nat := 8

/-- The loop of `mergeAndSubmit`. -/
structure MergeLoop where
  call : SubmitCall
  /-- Why its first try was refused. -/
  refusal : StoreError
  /-- The patchset the call last tried to submit. -/
  tried : Option PatchsetID
  /-- Whether the loop has merged. -/
  merged : Bool
  /-- The attempts made. -/
  attempts : Nat
deriving DecidableEq

/-- Where a call is. -/
inductive SubmitStage where
  /-- There is no call. -/
  | idle
  /-- It has read the changeset. -/
  | read (call : SubmitCall) (cs : ChangesetView)
  /-- It has the results to count. -/
  | checked (call : SubmitCall) (cs : ChangesetView) (extra : List (String × String))
  /-- Refused for a stale base, it is about to read the changeset again. -/
  | stale (loop : MergeLoop)
  /-- It has read the changeset to merge. -/
  | latest (loop : MergeLoop) (cs : ChangesetView)
  /-- It merges this patchset onto this commit. -/
  | merging (loop : MergeLoop) (cs : ChangesetView) (ps : Patchset) (head : CommitID)
  /-- It has uploaded the merge. -/
  | merged (loop : MergeLoop) (patchset : PatchsetID)
  /-- It has read the changeset with the merge. -/
  | refreshed (loop : MergeLoop) (patchset : PatchsetID) (cs : ChangesetView)
  /-- It has the results to count for the merge. -/
  | ready (loop : MergeLoop) (patchset : PatchsetID) (cs : ChangesetView)
    (extra : List (String × String))
  /-- It returns success, with the patchset it admitted if it admitted one. -/
  | done (patchset : Option PatchsetID)
  /-- It returns an error, with the note that stands before its text. -/
  | failed (note : String) (error : StoreError)
deriving DecidableEq

/-- A call, by a number. -/
abbrev CallID := Nat

/-- The state of the **service**. -/
structure Service where
  store : State
  /-- `check_runs`. -/
  checkRuns : List CheckRun
  calls : CallID → SubmitStage
  /-- What the servers merged into what, for stating what a call may admit. No step reads it. -/
  merges : List (PatchsetID × PatchsetID)

/-- A service over a store that starts from a commit with the given tree. -/
def Service.start (root : Node) : Service := ⟨State.start root, [], fun _ => .idle, []⟩

/-- A step of the service. -/
inductive ServiceAction where
  /-- A transaction of a publisher or of another call. `SubmitBypassingRequirements` and the
  `Submit` of an import are `Action.submit` here. -/
  | store (a : Action)
  /-- `CreateCheckRun`, also by `recordBundledCheckRuns` of an `UpdateChangeset`. -/
  | checkRun (id : ChangesetID) (patchset : PatchsetID) (name : String)
  /-- `UpdateCheckRunStatus` of a run of the check that is open, by a daemon, a trigger run or
  `recordBundledCheckRuns`. Any run may be the one that is open. -/
  | checkRunStatus (now : Time) (id : ChangesetID) (patchset : PatchsetID) (name : String) (status : RunStatus)
  /-- A call starts and reads its changeset. -/
  | call (k : CallID) (call : SubmitCall)
  /-- A call takes its next step. A patchset it makes has the fresh id. -/
  | advance (k : CallID) (now : Time) (fresh : PatchsetID)
  /-- A call has answered or its server has stopped. -/
  | leave (k : CallID)
deriving DecidableEq

/-- The service with a call at another stage. -/
def Service.setCall (s : Service) (k : CallID) (stage : SubmitStage) : Service :=
  { s with calls := Function.update s.calls k stage }

@[simp] theorem Service.calls_setCall_self (s : Service) (k : CallID) (stage : SubmitStage) :
    (s.setCall k stage).calls k = stage :=
  Function.update_self _ _ _

@[simp] theorem Service.calls_setCall_of_ne (s : Service) {j k : CallID} (h : k ≠ j)
    (stage : SubmitStage) : (s.setCall j stage).calls k = s.calls k :=
  Function.update_of_ne h _ _

/-- A call that moved is the one set. -/
theorem Service.eq_of_calls_setCall_ne {s : Service} {j k : CallID} {stage : SubmitStage}
    (h : (s.setCall j stage).calls k ≠ s.calls k) : k = j :=
  not_imp_comm.mp (fun hk => s.calls_setCall_of_ne hk stage) h

/-! ## The steps of a call -/

/-- The request a call at this stage is about to make to the store. -/
def SubmitStage.submission : SubmitStage → Option SubmitRequest
  | .checked call cs extra => some ⟨call.changeset, call.firstExpected cs, extra, false⟩
  | .ready loop patchset _ extra => some ⟨loop.call.changeset, some patchset, extra, false⟩
  | _ => none

/-- The answer of `submitPatchset`: the patchset it admitted, if it admitted one. -/
def submitAnswer (s : State) (now : Time) (req : SubmitRequest) :
    Except StoreError (Option PatchsetID) :=
  match admission s req with
  | .ok a => .ok (some a.patchset)
  | .error _ => (submitOnce s now req).2.map fun _ => none

/-- The note of a submit that merged. -/
def mergedNote (number : Nat) : String :=
  "the base had moved, so the server merged the changeset onto the latest base as patchset " ++
    toString number ++ ", which runs CI again: "

/-- The stage after the submit transaction. -/
def SubmitStage.afterSubmit (s : State) (now : Time) : SubmitStage → SubmitStage
  | .checked call cs extra =>
    match submitAnswer s now ⟨call.changeset, call.firstExpected cs, extra, false⟩ with
    | .ok patchset => .done patchset
    | .error e =>
      if isStaleBase e && !(call.stack && cs.row.parent.isSome) then
        .stale ⟨call, e, (s.changesets.get call.changeset).bind Changeset.currentPatchset, false, 0⟩
      else .failed "" e
  | .ready loop patchset _ extra =>
    match submitAnswer s now ⟨loop.call.changeset, some patchset, extra, false⟩ with
    | .ok admitted => .done admitted
    | .error e =>
      if isStaleBase e then
        if loop.attempts + 1 < mergeOnSubmitAttempts then
          .stale { loop with tried := some patchset, merged := true, attempts := loop.attempts + 1 }
        else
          .failed "" (.aborted ("the base kept moving while the changeset was merged onto it (" ++
            toString mergeOnSubmitAttempts ++ " tries); submit again"))
      else .failed (mergedNote (((s.patchsets.get patchset).map Patchset.number).getD 0)) e
  | stage => stage

/-- The first five conflicts, and how many more. -/
def conflictPathList (conflicts : List Path) : String :=
  String.intercalate ", " ((conflicts.take 5).map renderPath) ++
    if conflicts.length > 5 then " and " ++ toString (conflicts.length - 5) ++ " more" else ""

/-- The first half of `mergeStaleOnSubmit`: the patchset to merge and the commit to merge it onto,
if merging applies. -/
def mergeTarget (s : State) (cs : ChangesetView) :
    Except StoreError (Option (Patchset × CommitID)) :=
  match cs.currentPatchset with
  | none => .ok none
  | some (_, ps) =>
    match ps.base with
    | .patchset _ => .ok none
    | .commit _ =>
      if cs.row.parent.isSome ∨ ps.conflicts ≠ [] then .ok none
      else
        match s.slices.get cs.row.slice with
        | none => .error .notFound
        | some slice => .ok (if slice.mergeOnSubmit then some (ps, s.ref) else none)

/-- The update request of a merge. -/
def mergeUpload (subject : Subject) (head : CommitID) (edits : List FileEdit) (slice : Slice) :
    PatchsetUpload where
  author := subject
  kind := submitMergeKind
  base := .commit head
  fileEdits := edits
  conflicts := []
  includedPaths := slice.includedPaths
  readablePaths := []

/-- The store with the contents of a merge. -/
def putBlobs (s : State) (blobs : List (BlobID × Blob)) : State :=
  Machine.run step s (blobs.map fun b => .putBlob b.1 b.2)

/-- The second half of `mergeStaleOnSubmit`, with the `UpdateChangeset` it ends in. -/
def uploadMerge (srv : Server) (s : Service) (k : CallID) (now : Time) (fresh : PatchsetID)
    (loop : MergeLoop) (cs : ChangesetView) (ps : Patchset) (head : CommitID) : Service :=
  match srv.rebase s.store cs.row ps head with
  | .error e => s.setCall k (.failed "" e)
  | .ok r =>
    let s := { s with store := putBlobs s.store r.blobs }
    if r.conflicts ≠ [] then
      s.setCall k (.failed "" (.precondition ("the base moved, and merging the latest changes in " ++
        "conflicts at " ++ conflictPathList r.conflicts ++
        "; run gs sync to merge them in your workspace, then submit again")))
    else
      match s.store.slices.get cs.row.slice with
      | none => s.setCall k (.failed "" .notFound)
      | some slice =>
        match addPatchset s.store now cs.id cs.row.currentPatchset fresh
            (mergeUpload loop.call.subject head r.fileEdits slice) with
        | .error e => s.setCall k (.failed "" e)
        | .ok (store, id) =>
          { s with
            store := store
            merges := s.merges ++ cs.row.currentPatchset.toList.map fun old => (old, id) }.setCall k
              (.merged loop id)

/-- The next step of a call. -/
def advance (srv : Server) (s : Service) (k : CallID) (now : Time) (fresh : PatchsetID) : Service :=
  match s.calls k with
  | .idle | .done _ | .failed _ _ => s
  | .read call cs =>
    s.setCall k (match submitExtras srv s.store s.checkRuns cs with
      | .error e => .failed "" e
      | .ok extra => .checked call cs extra)
  | .stale loop =>
    s.setCall k (match getChangeset s.store loop.call.changeset with
      | none => .failed "" (if loop.merged then .notFound else loop.refusal)
      | some cs => .latest loop cs)
  | .latest loop cs =>
    s.setCall k (match mergeTarget s.store cs with
      | .error e => .failed "" e
      -- a loop that has merged before ends here with neither an answer nor an error
      | .ok none => if loop.merged then .done none else .failed "" loop.refusal
      | .ok (some (ps, head)) => .merging loop cs ps head)
  | .merging loop cs ps head => uploadMerge srv s k now fresh loop cs ps head
  | .merged loop patchset =>
    s.setCall k (match getChangeset s.store loop.call.changeset with
      | none => .failed "" .notFound
      | some cs => .refreshed loop patchset cs)
  | .refreshed loop patchset cs =>
    s.setCall k (match submitExtras srv s.store s.checkRuns cs with
      | .error e => .failed "" e
      | .ok extra => .ready loop patchset cs extra)
  | .checked call cs extra =>
    { s with store := step s.store (.submit now ⟨call.changeset, call.firstExpected cs, extra, false⟩) }.setCall
      k (SubmitStage.afterSubmit s.store now (.checked call cs extra))
  | .ready loop patchset cs extra =>
    { s with store := step s.store (.submit now ⟨loop.call.changeset, some patchset, extra, false⟩) }.setCall
      k (SubmitStage.afterSubmit s.store now (.ready loop patchset cs extra))

/-- A patchset of the changeset. -/
def hasPatchset (s : State) (id : ChangesetID) (patchset : PatchsetID) : Bool :=
  (s.patchsets.get patchset).any fun ps => ps.changeset = id

/-- A check run that ends records a result of its patchset, and clears the requirement block of the
changeset when the patchset is still the current one. -/
def recordCheckResult (s : State) (now : Time) (id : ChangesetID) (patchset : PatchsetID)
    (name result : String) :
    State :=
  { s with
    checkResults := s.checkResults.set (id, patchset, name) result
    changesets := s.changesets.update fun k c =>
      if k = id ∧ c.currentPatchset = some patchset then c.clearRequirementBlock now else c }

/-- One step of the service. -/
def serve (srv : Server) (s : Service) : ServiceAction → Service
  | .store a => { s with store := step s.store a }
  | .checkRun id patchset name =>
    if hasPatchset s.store id patchset ∧ trimSpace name ≠ "" then
      { s with checkRuns := s.checkRuns ++ [(id, patchset, trimSpace name)] }
    else s
  | .checkRunStatus now id patchset name status =>
    match status.result with
    | none => s
    | some result =>
      if (id, patchset, name) ∈ s.checkRuns then
        { s with store := recordCheckResult s.store now id patchset name result }
      else s
  | .call k call =>
    match s.calls k, getChangeset s.store call.changeset with
    | .idle, some cs => s.setCall k (.read call cs)
    | _, _ => s
  | .advance k now fresh => advance srv s k now fresh
  | .leave k => s.setCall k .idle

/-! ## What a step can do -/

/-- A step of the call `k` that only reads the store. -/
inductive StageMove (srv : Server) (s : Service) (k : CallID) :
    ServiceAction → SubmitStage → SubmitStage → Prop where
  | idle (stage : SubmitStage) : StageMove srv s k (.leave k) stage .idle
  | failed (now : Time) (fresh : PatchsetID) (stage : SubmitStage) (note : String) (e : StoreError) :
    StageMove srv s k (.advance k now fresh) stage (.failed note e)
  | read (call : SubmitCall) (cs : ChangesetView) (h : getChangeset s.store call.changeset = some cs) :
    StageMove srv s k (.call k call) .idle (.read call cs)
  | checked (now : Time) (fresh : PatchsetID) (call : SubmitCall) (cs : ChangesetView)
    (extra : List (String × String))
    (h : submitExtras srv s.store s.checkRuns cs = .ok extra) :
    StageMove srv s k (.advance k now fresh) (.read call cs) (.checked call cs extra)
  | latest (now : Time) (fresh : PatchsetID) (loop : MergeLoop) (cs : ChangesetView)
    (h : getChangeset s.store loop.call.changeset = some cs) :
    StageMove srv s k (.advance k now fresh) (.stale loop) (.latest loop cs)
  | unmerged (now : Time) (fresh : PatchsetID) (loop : MergeLoop) (cs : ChangesetView) :
    StageMove srv s k (.advance k now fresh) (.latest loop cs) (.done none)
  | merging (now : Time) (fresh : PatchsetID) (loop : MergeLoop) (cs : ChangesetView) (ps : Patchset)
    (head : CommitID)
    (h : mergeTarget s.store cs = .ok (some (ps, head))) :
    StageMove srv s k (.advance k now fresh) (.latest loop cs) (.merging loop cs ps head)
  | refreshed (now : Time) (fresh : PatchsetID) (loop : MergeLoop) (patchset : PatchsetID)
    (cs : ChangesetView)
    (h : getChangeset s.store loop.call.changeset = some cs) :
    StageMove srv s k (.advance k now fresh) (.merged loop patchset) (.refreshed loop patchset cs)
  | ready (now : Time) (fresh : PatchsetID) (loop : MergeLoop) (patchset : PatchsetID)
    (cs : ChangesetView) (extra : List (String × String))
    (h : submitExtras srv s.store s.checkRuns cs = .ok extra) :
    StageMove srv s k (.advance k now fresh) (.refreshed loop patchset cs) (.ready loop patchset cs extra)

/-- The upload of a merge: the request and the patchset that is then current. -/
structure Uploads (srv : Server) (s : Service) (now : Time) (fresh : PatchsetID) (loop : MergeLoop)
    (cs : ChangesetView) (ps : Patchset) (head : CommitID) (r : Rebased) (slice : Slice)
    (store : State) (id : PatchsetID) : Prop where
  rebased : srv.rebase s.store cs.row ps head = .ok r
  clean : r.conflicts = []
  resolved : (putBlobs s.store r.blobs).slices.get cs.row.slice = some slice
  added : addPatchset (putBlobs s.store r.blobs) now cs.id cs.row.currentPatchset fresh
    (mergeUpload loop.call.subject head r.fileEdits slice) = .ok (store, id)

/-- What a step of the service does. -/
inductive Serving (srv : Server) (s : Service) : ServiceAction → Service → Prop where
  | refused (a : ServiceAction) : Serving srv s a s
  | store (a : Action) : Serving srv s (.store a) { s with store := step s.store a }
  | checkRun (id : ChangesetID) (patchset : PatchsetID) (name : String)
    (h : hasPatchset s.store id patchset = true) :
    Serving srv s (.checkRun id patchset name)
      { s with checkRuns := s.checkRuns ++ [(id, patchset, trimSpace name)] }
  | checkRunStatus (now : Time) (id : ChangesetID) (patchset : PatchsetID) (name : String) (status : RunStatus)
    (result : String) (hrun : (id, patchset, name) ∈ s.checkRuns)
    (hresult : status.result = some result) :
    Serving srv s (.checkRunStatus now id patchset name status)
      { s with store := recordCheckResult s.store now id patchset name result }
  | move (a : ServiceAction) (k : CallID) (stage : SubmitStage)
    (h : StageMove srv s k a (s.calls k) stage) : Serving srv s a (s.setCall k stage)
  | submit (k : CallID) (now : Time) (fresh : PatchsetID) (req : SubmitRequest)
    (h : (s.calls k).submission = some req) :
    Serving srv s (.advance k now fresh)
      ({ s with store := step s.store (.submit now req) }.setCall k
        ((s.calls k).afterSubmit s.store now))
  | unmergeable (k : CallID) (now : Time) (fresh : PatchsetID) (blobs : List (BlobID × Blob))
    (note : String) (e : StoreError) :
    Serving srv s (.advance k now fresh)
      ({ s with store := putBlobs s.store blobs }.setCall k (.failed note e))
  | merge (k : CallID) (now : Time) (fresh : PatchsetID) (loop : MergeLoop) (cs : ChangesetView)
    (ps : Patchset) (head : CommitID) (r : Rebased) (slice : Slice) (store : State)
    (id : PatchsetID) (hstage : s.calls k = .merging loop cs ps head)
    (h : Uploads srv s now fresh loop cs ps head r slice store id) :
    Serving srv s (.advance k now fresh)
      ({ s with
          store := store,
          merges := s.merges ++ cs.row.currentPatchset.toList.map fun old => (old, id) }.setCall k
        (.merged loop id))

theorem uploadMerge_serving {srv : Server} {s : Service} {k : CallID} (now : Time)
    (fresh : PatchsetID) {loop : MergeLoop} {cs : ChangesetView} {ps : Patchset} {head : CommitID}
    (hstage : s.calls k = .merging loop cs ps head) :
    Serving srv s (.advance k now fresh) (uploadMerge srv s k now fresh loop cs ps head) := by
  unfold uploadMerge
  split
  · exact .move _ k _ (.failed now fresh _ _ _)
  · rename_i r hr
    dsimp only
    split_ifs with hconflicts
    · exact .unmergeable k now fresh r.blobs _ _
    · split
      · exact .unmergeable k now fresh r.blobs _ _
      · rename_i slice hslice
        split
        · exact .unmergeable k now fresh r.blobs _ _
        · rename_i store id hadd
          exact .merge k now fresh loop cs ps head r slice store id hstage
            ⟨hr, not_not.mp hconflicts, hslice, hadd⟩

variable (srv : Server)

theorem advance_serving (s : Service) (k : CallID) (now : Time) (fresh : PatchsetID) :
    Serving srv s (.advance k now fresh) (advance srv s k now fresh) := by
  -- the steps that only read are moves from the stage the call is at
  have hmove : ∀ {stage stage'}, s.calls k = stage →
      StageMove srv s k (.advance k now fresh) stage stage' →
      Serving srv s (.advance k now fresh) (s.setCall k stage') := by
    intro stage stage' hstage h
    exact .move _ k stage' (hstage ▸ h)
  unfold advance
  split
  · exact .refused _
  · exact .refused _
  · exact .refused _
  · rename_i call cs hstage
    split
    · exact hmove hstage (.failed now fresh _ _ _)
    · exact hmove hstage (.checked now fresh call cs _ (by assumption))
  · rename_i loop hstage
    split
    · exact hmove hstage (.failed now fresh _ _ _)
    · exact hmove hstage (.latest now fresh loop _ (by assumption))
  · rename_i loop cs hstage
    split
    · exact hmove hstage (.failed now fresh _ _ _)
    · split_ifs
      · exact hmove hstage (.unmerged now fresh loop cs)
      · exact hmove hstage (.failed now fresh _ _ _)
    · exact hmove hstage (.merging now fresh loop cs _ _ (by assumption))
  · rename_i hstage
    exact uploadMerge_serving now fresh hstage
  · rename_i loop patchset hstage
    split
    · exact hmove hstage (.failed now fresh _ _ _)
    · exact hmove hstage (.refreshed now fresh loop patchset _ (by assumption))
  · rename_i loop patchset cs hstage
    split
    · exact hmove hstage (.failed now fresh _ _ _)
    · exact hmove hstage (.ready now fresh loop patchset cs _ (by assumption))
  · rename_i call cs extra hstage
    have h : Serving srv s _ _ := .submit k now fresh
      ⟨call.changeset, call.firstExpected cs, extra, false⟩ (by rw [hstage]; rfl)
    rwa [hstage] at h
  · rename_i loop patchset cs extra hstage
    have h : Serving srv s _ _ := .submit k now fresh
      ⟨loop.call.changeset, some patchset, extra, false⟩ (by rw [hstage]; rfl)
    rwa [hstage] at h

/-- **What a step of the service can do.** -/
theorem serve_serving (s : Service) (a : ServiceAction) : Serving srv s a (serve srv s a) := by
  cases a with
  | store a => exact .store a
  | checkRun id patchset name =>
    simp only [serve]
    split_ifs with hrun
    · exact .checkRun id patchset name hrun.1
    · exact .refused _
  | checkRunStatus now id patchset name status =>
    simp only [serve]
    split
    · exact .refused _
    · rename_i result hresult
      split_ifs with hrun
      · exact .checkRunStatus now id patchset name status result hrun hresult
      · exact .refused _
  | call k call =>
    simp only [serve]
    split
    · rename_i cs hidle hcs
      exact .move _ k _ (hidle ▸ .read call cs hcs)
    · exact .refused _
  | advance k now fresh => exact advance_serving srv s k now fresh
  | leave k => exact .move _ k _ (.idle _)

end GitSlice
