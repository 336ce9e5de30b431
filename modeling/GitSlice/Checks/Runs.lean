import Mathlib
import GitSlice.Library.Machine
import GitSlice.Storage.Requirements

/-! # Check runs
The check store (`internal/postgres/check_store.go`) as a machine of transactions that interleave.
Every server action is one statement, or the statements up to the commit, of one of three
transactions: `CreateCheckRun` (take the advisory lock of the check; count the attempts and lock
their rows; insert the run, supersede the runs before it and commit), `UpdateCheckRunStatus` (write
the row of the run; record the result and commit) and `CancelOpenCheckRunsBeforePatchset` (write the
rows it found one after the other, looking at each again when its lock is free; commit). What a
transaction writes shows when it commits. A statement that waits for a lock is an action that
changes nothing. -/

namespace GitSlice

/-- The id of a check run. -/
abbrev RunID := String

/-- A transaction of some server. -/
abbrev TxID := Nat

/-- `normalizeCheckRunStatus`. -/
def normalizeCheckRunStatus (status : String) : Option RunStatus :=
  match toLower (trimSpace status) with
  | "" | "queued" => some .queued
  | "running" => some .running
  | "passed" => some .passed
  | "failed" => some .failed
  | "errored" => some .errored
  | "skipped" => some .skipped
  | "canceled" => some .canceled
  | _ => none

/-- Only a status that is final records a result. -/
theorem RunStatus.isTerminal_of_result {status : RunStatus} (h : status.result ≠ none) :
    status.isTerminal = true := by
  cases status <;> simp_all [RunStatus.result, RunStatus.isTerminal]

/-- The key of `check_results`. -/
structure CheckKey where
  changeset : ChangesetID
  patchset : PatchsetID
  /-- The name of the check. -/
  check : String
deriving DecidableEq

/-- What attempts are counted by: the patchset and the check. -/
abbrev CheckKey.pair (key : CheckKey) : PatchsetID × String := (key.patchset, key.check)

/-- A row of `check_runs`. -/
structure RunRow where
  id : RunID
  /-- `changeset_id`, `patchset_id` and `check_name`. -/
  key : CheckKey
  /-- `attempt`, an `int32`. -/
  attempt : Int
  /-- `superseded_by_run_id`. -/
  supersededBy : Option RunID
  status : RunStatus
  /-- `exit_code`. -/
  exitCode : Option Int
  summary : String
deriving DecidableEq

/-- A row of `check_results`. -/
structure CheckResult where
  status : String
  /-- `reported_by`. -/
  reportedBy : Subject
deriving DecidableEq

/-- An open transaction, at the statement it is at. -/
inductive CheckTx
  /-- `CreateCheckRun` holds the advisory lock of its check. -/
  | creating (key : CheckKey) (status : RunStatus)
  /-- `CreateCheckRun` has read the attempts. -/
  | counted (key : CheckKey) (status : RunStatus) (attempt : Int)
  /-- `UpdateCheckRunStatus` has written the row of its run. -/
  | updating (id : RunID) (key : CheckKey) (status : RunStatus) (exitCode : Int) (summary : String)
  /-- `CancelOpenCheckRunsBeforePatchset` still has rows to look at, and has written others. -/
  | canceling (changeset : ChangesetID) (patchset : PatchsetID) (remaining written : List RunID)
deriving DecidableEq

/-- The tables, and the transactions over them with their locks. -/
structure CheckState where
  patchsets : Table PatchsetID ChangesetID
  /-- `check_runs`, in the order the rows were committed. -/
  runs : List RunRow
  /-- `check_results`. -/
  results : Table CheckKey CheckResult
  /-- The open transactions. -/
  txs : TxID → Option CheckTx
  /-- The holder of the advisory lock of a check. -/
  checkLock : PatchsetID × String → Option TxID
  /-- The holder of the lock of a row of `check_runs`. -/
  rowLock : RunID → Option TxID

/-- Empty tables. -/
def CheckState.start : CheckState where
  patchsets := .empty
  runs := []
  results := .empty
  txs := fun _ => none
  checkLock := fun _ => none
  rowLock := fun _ => none

/-- What a server does next. -/
inductive CheckAction
  /-- A patchset is uploaded. -/
  | addPatchset (patchset : PatchsetID) (changeset : ChangesetID)
  /-- `CreateCheckRun` begins and takes its advisory lock. -/
  | beginCreate (t : TxID) (changeset patchset check status : String)
  /-- `CreateCheckRun` reads the attempts, for update. -/
  | countAttempts (t : TxID)
  /-- `CreateCheckRun` inserts its run under a random id, supersedes the others and commits. -/
  | commitCreate (t : TxID) (id : RunID)
  /-- `UpdateCheckRunStatus` begins and writes its row. -/
  | beginUpdate (t : TxID) (id status : String) (exitCode : Int) (summary : String)
  /-- `UpdateCheckRunStatus` records the result, by the subject it finds for the run, and
  commits. -/
  | commitUpdate (t : TxID) (reporter : Option Subject)
  /-- `CancelOpenCheckRunsBeforePatchset` begins and finds its rows. -/
  | beginCancel (t : TxID) (changeset patchset : String)
  /-- `CancelOpenCheckRunsBeforePatchset` looks at its next row. -/
  | cancelNext (t : TxID)
  /-- `CancelOpenCheckRunsBeforePatchset` commits. -/
  | commitCancel (t : TxID)
  /-- A transaction fails, or its server stops. -/
  | rollback (t : TxID)
  /-- `ReportCheckResult`: a result reported by hand for a changeset's current patchset. -/
  | report (key : CheckKey) (status : String) (subject : Subject)
deriving DecidableEq

/-! ## The statements -/

/-- `int32` arithmetic wraps. -/
def int32 (n : Int) : Int := n.bmod (2 ^ 32)

/-- The loop of `CreateCheckRun` over the attempts it reads. -/
def nextAttempt (previous : List Int) : Int :=
  previous.foldl (fun attempt p => if attempt ≤ p then int32 (p + 1) else attempt) 1

/-- A row of a check that no other run superseded. -/
def RunRow.isLive (pair : PatchsetID × String) (r : RunRow) : Bool :=
  r.key.pair = pair ∧ r.supersededBy = none

/-- The condition of the update of `UpdateCheckRunStatus`. -/
def RunRow.accepts (status : RunStatus) (r : RunRow) : Bool :=
  r.status.isTerminal = false ∧ (r.supersededBy = none ∨ status = .canceled)

/-- The condition of the update of `CancelOpenCheckRunsBeforePatchset`. -/
def RunRow.isOpenBefore (changeset : ChangesetID) (patchset : PatchsetID) (r : RunRow) : Bool :=
  r.key.changeset = changeset ∧ r.key.patchset ≠ patchset ∧ r.supersededBy = none ∧
    (r.status = .queued ∨ r.status = .running)

/-- The columns `UpdateCheckRunStatus` writes. -/
def RunRow.withStatus (r : RunRow) (status : RunStatus) (exitCode : Int) (summary : String) :
    RunRow :=
  { r with
    status := status
    exitCode := if status.isTerminal then some exitCode else r.exitCode
    summary := if status.isTerminal then summary else r.summary }

/-- The columns `CancelOpenCheckRunsBeforePatchset` writes. -/
def RunRow.cancel (r : RunRow) : RunRow :=
  { r with status := .canceled, exitCode := some (-1), summary := "superseded by newer patchset" }

namespace CheckState

/-- The rows of a check that are not superseded. -/
def live (s : CheckState) (pair : PatchsetID × String) : List RunRow :=
  s.runs.filter (RunRow.isLive pair)

/-- The row of a run. -/
def row (s : CheckState) (id : RunID) : Option RunRow := s.runs.find? fun r => r.id = id

/-- Another transaction has locked the row. -/
def isLockedFor (s : CheckState) (t : TxID) (id : RunID) : Bool :=
  s.rowLock id ≠ none ∧ s.rowLock id ≠ some t

/-- Set the statement a transaction is at. -/
def setTx (s : CheckState) (t : TxID) (tx : CheckTx) : CheckState :=
  { s with txs := Function.update s.txs t (some tx) }

/-- Lock rows for a transaction. -/
def lockRows (s : CheckState) (t : TxID) (ids : List RunID) : CheckState :=
  { s with rowLock := fun id => if id ∈ ids then some t else s.rowLock id }

/-- End a transaction and free its locks. -/
def release (s : CheckState) (t : TxID) : CheckState :=
  { s with
    txs := Function.update s.txs t none
    checkLock := fun pair => if s.checkLock pair = some t then none else s.checkLock pair
    rowLock := fun id => if s.rowLock id = some t then none else s.rowLock id }

/-- Rewrite the rows with the given ids. -/
def rewrite (s : CheckState) (ids : List RunID) (f : RunRow → RunRow) : CheckState :=
  { s with runs := s.runs.map fun r => if r.id ∈ ids then f r else r }

/-- The advisory lock of `CreateCheckRun`, after its arguments are checked. -/
def beginCreate (s : CheckState) (t : TxID) (changeset patchset check status : String) :
    CheckState :=
  match normalizeCheckRunStatus status with
  | none => s
  | some status =>
    let key : CheckKey := ⟨trimSpace changeset, trimSpace patchset, trimSpace check⟩
    if key.changeset = "" ∨ key.patchset = "" ∨ key.check = "" then s
    else if s.txs t ≠ none ∨ s.checkLock key.pair ≠ none then s
    else
      { s.setTx t (.creating key status) with
        checkLock := Function.update s.checkLock key.pair (some t) }

/-- `requirePatchsetForChangeset`, and the attempts `CreateCheckRun` reads for update. -/
def countAttempts (s : CheckState) (t : TxID) : CheckState :=
  match s.txs t with
  | some (.creating key status) =>
    if s.patchsets.get key.patchset ≠ some key.changeset then s.release t
    else if (s.live key.pair).any fun r => s.isLockedFor t r.id then s
    else
      (s.lockRows t ((s.live key.pair).map RunRow.id)).setTx t
        (.counted key status (nextAttempt ((s.live key.pair).map RunRow.attempt)))
  | _ => s

/-- The insert of `CreateCheckRun`, its update of the runs before, and the commit. The transaction
holds the locks that keep both from changing between the statements. -/
def commitCreate (s : CheckState) (t : TxID) (id : RunID) : CheckState :=
  match s.txs t with
  | some (.counted key status attempt) =>
    if (s.row id).isSome then s.release t
    else if 1 < attempt ∧ (s.live key.pair).any fun r => s.isLockedFor t r.id then s
    else
      let superseded : List RunRow :=
        if 1 < attempt then
          s.runs.map fun r => if r.isLive key.pair then { r with supersededBy := some id } else r
        else s.runs
      { s.release t with
        runs := superseded ++
          [{ id := id, key := key, attempt := attempt, supersededBy := none, status := status,
             exitCode := none, summary := "" }] }
  | _ => s

/-- The update of `UpdateCheckRunStatus`. -/
def beginUpdate (s : CheckState) (t : TxID) (id status : String) (exitCode : Int)
    (summary : String) : CheckState :=
  match normalizeCheckRunStatus status, s.row (trimSpace id), s.txs t with
  | some status, some r, none =>
    if trimSpace id = "" ∨ s.rowLock r.id ≠ none then s
    else if r.accepts status then
      (s.lockRows t [r.id]).setTx t (.updating r.id r.key status exitCode (trimSpace summary))
    else s
  | _, _, _ => s

/-- The result `UpdateCheckRunStatus` records, and the commit. Without a subject to report it the
transaction fails. -/
def commitUpdate (s : CheckState) (t : TxID) (reporter : Option Subject) : CheckState :=
  match s.txs t with
  | some (.updating id key status exitCode summary) =>
    let written := (s.release t).rewrite [id] fun r => r.withStatus status exitCode summary
    match status.result, reporter with
    | none, _ => written
    | some _, none => s.release t
    | some result, some subject => { written with results := s.results.set key ⟨result, subject⟩ }
  | _ => s

/-- The rows `CancelOpenCheckRunsBeforePatchset` finds. -/
def beginCancel (s : CheckState) (t : TxID) (changeset patchset : String) : CheckState :=
  let changeset := trimSpace changeset
  let patchset := trimSpace patchset
  if changeset = "" ∨ patchset = "" then s
  else if s.txs t ≠ none ∨ s.patchsets.get patchset ≠ some changeset then s
  else
    s.setTx t (.canceling changeset patchset
      ((s.runs.filter (RunRow.isOpenBefore changeset patchset)).map RunRow.id) [])

/-- The next row of `CancelOpenCheckRunsBeforePatchset`: it waits for the lock of the row and then
looks at it again. -/
def cancelNext (s : CheckState) (t : TxID) : CheckState :=
  match s.txs t with
  | some (.canceling changeset patchset (id :: remaining) written) =>
    if s.isLockedFor t id then s
    else
      match s.row id with
      | none => s.setTx t (.canceling changeset patchset remaining written)
      | some r =>
        if r.isOpenBefore changeset patchset then
          (s.lockRows t [r.id]).setTx t (.canceling changeset patchset remaining (r.id :: written))
        else s.setTx t (.canceling changeset patchset remaining written)
  | _ => s

/-- The commit of `CancelOpenCheckRunsBeforePatchset`. -/
def commitCancel (s : CheckState) (t : TxID) : CheckState :=
  match s.txs t with
  | some (.canceling _ _ [] written) => (s.release t).rewrite written RunRow.cancel
  | _ => s

/-- `ReportCheckResult`. -/
def report (s : CheckState) (key : CheckKey) (status : String) (subject : Subject) : CheckState :=
  match normalizeCheckStatus status with
  | none => s
  | some status => { s with results := s.results.set key ⟨status, subject⟩ }

/-- One action of one server. -/
def step (s : CheckState) : CheckAction → CheckState
  | .addPatchset patchset changeset =>
    { s with patchsets := s.patchsets.insertNew patchset changeset }
  | .beginCreate t changeset patchset check status => s.beginCreate t changeset patchset check status
  | .countAttempts t => s.countAttempts t
  | .commitCreate t id => s.commitCreate t id
  | .beginUpdate t id status exitCode summary => s.beginUpdate t id status exitCode summary
  | .commitUpdate t reporter => s.commitUpdate t reporter
  | .beginCancel t changeset patchset => s.beginCancel t changeset patchset
  | .cancelNext t => s.cancelNext t
  | .commitCancel t => s.commitCancel t
  | .rollback t => s.release t
  | .report key status subject => s.report key status subject

/-- The state after a sequence of actions on empty tables. -/
def after (as : List CheckAction) : CheckState := Machine.run step start as

end CheckState

end GitSlice
