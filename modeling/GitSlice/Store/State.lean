import GitSlice.Library.Table
import GitSlice.TreeStore.Edit

/-! # The changeset store's tables
The state of `internal/postgres`: the tables its transactions read and write, and what each
publisher holds in memory between its transactions. There is one target ref
(`requireDefaultTargetRef`), so rows carry no ref name. Identifiers are opaque; a fresh one comes
with the action that uses it. Timestamps are numbers, in microseconds.

Hashes are taken to be injective and are modelled by what they hash: an entry fingerprint by the
entry (`Fingerprint`), a commit id by the commit object (`CommitID`). -/

namespace GitSlice

/-- The id of a changeset. -/
abbrev ChangesetID := String

/-- The id of a patchset. -/
abbrev PatchsetID := String

/-- The id of a slice. -/
abbrev SliceID := String

/-- The id of a blob. -/
abbrev BlobID := String

/-- A signed-in subject. -/
abbrev Subject := String

/-- A publisher: one running `PublishPending`. -/
abbrev PublisherID := Nat

/-- A time in microseconds. -/
abbrev Time := Nat

/-- The errors of the store. -/
inductive StoreError where
  /-- `ErrNotFound`. -/
  | notFound
  /-- `ErrConflict`, with the reason it wraps (or none). -/
  | conflict (reason : String)
  /-- `ErrInvalid`, with its message. -/
  | invalid (message : String)
  /-- `codes.FailedPrecondition` of the service, with its message. -/
  | precondition (message : String)
  /-- `codes.Aborted` of the service, with its message. -/
  | aborted (message : String)
  /-- An error of the tree store, passed on. -/
  | tree (error : TreeError)
  /-- An error of the database: a key that is taken. -/
  | database
  /-- A recursion without an end. -/
  | overflow
deriving DecidableEq

/-! ## Entries and their fingerprints -/

/-- The **fingerprint** of a tree entry: `FileEntryFingerprint`, `DirectoryEntryFingerprint` and
`MissingEntryFingerprint`, by what they hash. The size of a file is not hashed. -/
inductive Fingerprint where
  /-- No entry. -/
  | missing
  /-- A file. -/
  | file (mode : Nat) (blobId contentHash : String)
  /-- A directory, by its tree. -/
  | directory (tree : Node)
deriving DecidableEq

/-- What a head keeps of a file. -/
def fileEntryFingerprint (f : FileEntry) : Fingerprint := .file f.mode f.blobId f.contentHash

/-- A row of `path_heads`. -/
structure PathHead where
  /-- Whether there is an entry (`exists`). -/
  present : Bool
  /-- The entry's fingerprint. -/
  fingerprint : Fingerprint
  /-- The blob id, content hash, mode and size of a file; null otherwise. -/
  file : Option FileEntry
deriving DecidableEq

/-- What a patchset records about a path of its base tree (`corev1.PathBase`). -/
structure PathBase where
  path : Path
  /-- Whether the base tree has an entry there (`Exists`). -/
  present : Bool
  /-- The fingerprint of that entry. -/
  fingerprint : Fingerprint
deriving DecidableEq

/-! ## Commits -/

/-- A **commit id**: the commit object it is the hash of. -/
inductive CommitID where
  /-- The commit a repository starts from (`seedBootstrap`). -/
  | initial (root : Node)
  /-- A commit with one parent. -/
  | child (parent : CommitID) (root : Node) (author message : String) (createdAt : Time)
      (changedPaths : List Path)
deriving DecidableEq

/-- A row of `commits`. -/
structure Commit where
  parentIds : List CommitID
  rootTree : Node
  author : Subject
  message : String
  /-- The time of the commit. -/
  createdAt : Time
  /-- The paths its patchset changed. -/
  changedPaths : List Path
deriving DecidableEq

/-! ## Changesets and patchsets -/

/-- `changesets.status`. -/
inductive ChangesetStatus where
  /-- Open. -/
  | draft
  /-- Admitted, and not yet published. -/
  | pendingPublish
  /-- Landed. -/
  | submitted
  /-- Given up. -/
  | abandoned
deriving DecidableEq

/-- A row of `changesets`. -/
structure Changeset where
  /-- The slice it was authored in. -/
  slice : SliceID
  author : Subject
  title : String
  description : String
  /-- The commit it was started from. -/
  baseCommit : CommitID
  status : ChangesetStatus
  currentPatchset : Option PatchsetID
  /-- The number of the current patchset, 0 for none. -/
  currentNumber : Nat
  /-- The commit it landed as. -/
  commit : Option CommitID
  /-- The changeset it is stacked on. -/
  parent : Option ChangesetID
  /-- Why the last submit was refused, or empty. -/
  blockedReason : String
  /-- The time of the last change of the row. -/
  updatedAt : Time
deriving DecidableEq

/-- What an upsert of a patchset carries: the blob, its content hash and the mode. -/
structure UploadedFile where
  blobId : BlobID
  /-- The content hash, as the validator sets it from the blob. -/
  contentHash : String
  /-- The file mode. -/
  mode : Nat
deriving DecidableEq

/-- An edit of a patchset, normalized (`corev1.FileEdit` after `normalizeEdit`). -/
abbrev FileEdit := Edit UploadedFile

/-- What a patchset was built on (`base_kind` and what it names). -/
inductive PatchsetBase where
  /-- A commit. -/
  | commit (id : CommitID)
  /-- The patchset of the changeset it is stacked on. -/
  | patchset (id : PatchsetID)
deriving DecidableEq

/-- A row of `patchsets`. -/
structure Patchset where
  /-- The changeset it belongs to. -/
  changeset : ChangesetID
  /-- Its number in the changeset, from 1. -/
  number : Nat
  /-- Who uploaded it. -/
  author : Subject
  /-- Its kind: `submit_merge` for one the server merged, whatever the client says otherwise. -/
  kind : String
  /-- What it was built on. -/
  base : PatchsetBase
  /-- The tree it was built on. -/
  baseTree : Node
  /-- The tree it leads to. -/
  resultTree : Node
  fileEdits : List FileEdit
  changedPaths : List Path
  /-- What its base tree had at the paths it changes or reads. -/
  pathBases : List PathBase
  /-- The paths with conflicts left to resolve. -/
  conflicts : List Path
deriving DecidableEq

/-- A row of `slices`: the parts of a definition that submit looks at. -/
structure Slice where
  /-- The account it belongs to. -/
  account : String
  includedPaths : List Path
  /-- How many approvals a submit needs. -/
  requiredApprovals : Nat
  /-- Which checks must pass. -/
  requiredChecks : List String
  /-- Whether a stale changeset is merged at submit. -/
  mergeOnSubmit : Bool
deriving DecidableEq

/-- An available row of `blobs`. -/
structure Blob where
  contentHash : String
  /-- The size of the content. -/
  size : Nat
deriving DecidableEq

/-- A row of `approvals`. -/
structure Approval where
  changeset : ChangesetID
  /-- The patchset approved. -/
  patchset : PatchsetID
  /-- Who approved it. -/
  subject : Subject
deriving DecidableEq

/-! ## Publishing -/

/-- `pending_publish.status`. -/
inductive PendingStatus where
  /-- Waiting for a publisher. -/
  | pending
  /-- Claimed by a publisher. -/
  | publishing
  /-- On the ref. -/
  | published
deriving DecidableEq

/-- A row of `pending_publish`. The row is identified by its sequence number; `changeset_id` is
unique too. -/
structure PendingPublish where
  /-- The order of admission. -/
  sequence : Nat
  /-- The changeset admitted. -/
  changeset : ChangesetID
  /-- The patchset admitted. -/
  patchset : PatchsetID
  /-- The ref's commit at admission. -/
  baseRefCommit : CommitID
  status : PendingStatus
  /-- The commit it was published as. -/
  commit : Option CommitID
  /-- The time of the last change of the row. -/
  updatedAt : Time
deriving DecidableEq

/-- `publishPathHeadMutation`: a batch of heads to write, or a path to mark deleted with all
below. -/
inductive PathHeadMutation where
  /-- Write these heads. -/
  | heads (heads : List (Path × PathHead))
  /-- Mark the path and everything under it deleted. -/
  | delete (path : Path)
deriving DecidableEq

/-- A row of `outbox`: the payload of a published commit. -/
structure CommitPublished where
  commit : CommitID
  /-- Its parent, the ref's commit or the commit before it in the batch. -/
  baseCommit : CommitID
  /-- The changeset it was made for. -/
  changeset : ChangesetID
  /-- The patchset it was made from. -/
  patchset : PatchsetID
  changedPaths : List Path
  committedAt : Time
deriving DecidableEq

/-- `pendingPublishRow`: what a claim keeps of a row. -/
structure ClaimedRow where
  sequence : Nat
  changeset : ChangesetID
  patchset : PatchsetID
deriving DecidableEq

/-- What a publisher holds. -/
structure PendingPublishClaim where
  /-- The rows claimed, in sequence order. -/
  rows : List ClaimedRow
  /-- The ref's commit when they were claimed. -/
  originalCommit : CommitID
  /-- That commit's root tree. -/
  rootTree : Node
deriving DecidableEq

/-- One publishable row of a build: its element in `CommitInserts`, `PathHeadMutations`,
`OutboxPayloads`, `PendingUpdates` and `ChangesetUpdates`. -/
structure PublishEntry where
  row : ClaimedRow
  /-- The commit made for it. -/
  commitId : CommitID
  /-- The commit's row. -/
  commit : Commit
  /-- The parent of the commit. -/
  baseCommit : CommitID
  /-- The path heads to write with it. -/
  mutations : List PathHeadMutation
  /-- The changeset's `updated_at` when it was read. -/
  observedUpdatedAt : Time
deriving DecidableEq

/-- What it has built. -/
structure PendingPublishBuild where
  /-- The publishable rows. -/
  entries : List PublishEntry
  /-- The rows whose changeset is not waiting any more. -/
  skipped : List Nat
deriving DecidableEq

/-- Where a publisher is in `PublishPending`. -/
inductive PublisherStage where
  /-- Not publishing. -/
  | idle
  /-- After a claim. -/
  | claimed (claim : PendingPublishClaim)
  /-- After a build. -/
  | built (claim : PendingPublishClaim) (build : PendingPublishBuild)
  /-- After a failure, before the claims are released. -/
  | failed (claim : PendingPublishClaim)
deriving DecidableEq

/-- A row of `current_path_entities`. -/
structure PathEntity where
  /-- `file` or another kind. -/
  isFile : Bool
  contentHash : String
  /-- The file mode. -/
  mode : Nat
deriving DecidableEq

/-- The **state** of the store. -/
structure State where
  changesets : Table ChangesetID Changeset
  patchsets : Table PatchsetID Patchset
  approvals : List Approval
  /-- `check_results`, by changeset, patchset and check name. -/
  checkResults : Table (ChangesetID × PatchsetID × String) String
  slices : Table SliceID Slice
  blobs : Table BlobID Blob
  /-- `pending_publish`, in sequence order. -/
  pendingPublish : List PendingPublish
  /-- The next sequence number. -/
  nextSequence : Nat
  /-- `path_heads`. -/
  pathHeads : Table Path PathHead
  commits : Table CommitID Commit
  /-- The commit of the target ref. -/
  ref : CommitID
  /-- `outbox`, in insertion order. -/
  outbox : List CommitPublished
  /-- `ref_materialized_heads` with `current_path_entities`: the flat index and the commit it
  reflects. No step of the machine writes it, so there is none in the runs of the theorems. -/
  flatIndex : Option (CommitID × Table Path PathEntity)
  /-- What each publisher holds. -/
  publishers : PublisherID → PublisherStage

/-- The row of the commit a repository starts from. -/
def initialCommit (root : Node) : Commit where
  parentIds := []
  rootTree := root
  author := "system"
  message := "Initial empty tree"
  createdAt := 0
  changedPaths := []

/-- A store that starts from a commit with the given tree. The source seeds the empty one. -/
def State.start (root : Node) : State where
  changesets := .empty
  patchsets := .empty
  approvals := []
  checkResults := .empty
  slices := .empty
  blobs := .empty
  pendingPublish := []
  nextSequence := 1
  pathHeads := .empty
  commits := Table.empty.set (.initial root) (initialCommit root)
  ref := .initial root
  outbox := []
  flatIndex := none
  publishers := fun _ => .idle

/-- `rootTreeIDForCommitTx`. -/
def State.rootTree (s : State) (c : CommitID) : Option Node := (s.commits.get c).map Commit.rootTree

end GitSlice
