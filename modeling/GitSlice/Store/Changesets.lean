import GitSlice.Store.PathHeads
import GitSlice.Storage.Requirements

/-! # Changesets before they are submitted
The transactions that prepare a changeset: `Create`, `AddPatchset`, `Approve`, `ReportCheckResult`
and `Abandon` (`changeset_store.go`, `changeset_patchset.go`, `changeset_requirements.go`), with the
validation the service does before `AddPatchset` (`service/diff_validator.go`). A transaction that
fails changes nothing, so each is a function to the new state or an error.

Everything another module needs about a transaction is in its inversion lemma: `create_ok`,
`addPatchset_ok`, `approve_ok`, `reportCheckResult_ok` and `abandon_ok`. -/

namespace GitSlice

open GitSlice.Except

/-! ## Validation of edits -/

/-- What a request to add a patchset brings. -/
structure PatchsetUpload where
  /-- The caller. -/
  author : Subject
  /-- The kind the request asks for. -/
  kind : String
  /-- What the patchset is built on. -/
  base : PatchsetBase
  /-- The edits, before normalization. -/
  fileEdits : List FileEdit
  /-- The conflicts left to resolve. -/
  conflicts : List Path
  /-- The included paths of the slice definition the service read. -/
  includedPaths : List Path
  /-- Further paths a copy may read from. -/
  readablePaths : List Path
deriving DecidableEq

/-- What the validation of edits gives. -/
structure ValidatedEdits where
  /-- The edits, normalized, with the content hashes of their blobs. -/
  fileEdits : List FileEdit
  /-- The paths changed, sorted. -/
  changedPaths : List Path
  /-- The entries of the base tree at the paths changed, then at those read. -/
  pathBases : List PathBase
deriving DecidableEq

/-- `paths.Canonical`, as a check. -/
def requireCanonical (p : Path) : Except StoreError Unit :=
  if canonical p then .ok ()
  else .error (.invalid ("path must include account and slice segments: " ++ quote (renderPath p)))

/-- An edit as it is stored. -/
def normalizeEdit : FileEdit → Except StoreError FileEdit
  | .upsert p f => do
    requireCanonical p
    if f.blobId = "" then
      .error (.invalid ("blob id is required for upsert edit on " ++ renderPath p))
    else .ok (.upsert p { f with mode := if f.mode = 0 then 0o100644 else f.mode })
  | .delete p => do
    requireCanonical p
    .ok (.delete p)
  | .mkdir p => do
    requireCanonical p
    .ok (.mkdir p)
  | .rename old p => do
    requireCanonical p
    requireCanonical old
    if p = old then .error (.invalid "rename source and destination must differ")
    else .ok (.rename old p)
  | .copy old p => do
    requireCanonical p
    requireCanonical old
    if p = old then .error (.invalid "copy source and destination must differ")
    else if contains old p then .error (.invalid ("can't copy " ++ renderPath old ++ " into itself"))
    else .ok (.copy old p)

/-- `hydrateBlobsMetadata`, for one edit. -/
def hydrateBlobMetadata (blobs : Table BlobID Blob) : FileEdit → Except StoreError FileEdit
  | .upsert p f =>
    match blobs.get f.blobId with
    | none => .error .notFound
    | some blob =>
      if f.contentHash ≠ "" ∧ f.contentHash ≠ blob.contentHash then
        .error (.invalid ("content hash does not match blob " ++ f.blobId))
      else .ok (.upsert p { f with contentHash := blob.contentHash })
  | e => .ok e

/-- The slice includes a path the edit changes. -/
def requireIncluded (included : List Path) (p : Path) : Except StoreError Unit :=
  if inAnyPrefix included p then .ok ()
  else .error (.precondition ("path " ++ renderPath p ++ " is outside slice"))

/-- The slice includes what the edit changes, and a copy may read its source. -/
def requireCovered (included readable : List Path) : FileEdit → Except StoreError Unit
  | .copy old p =>
    if inAnyPrefix included old ∨ inAnyPrefix readable old then requireIncluded included p
    else .error (.precondition ("copy source " ++ renderPath old ++ " is outside slice"))
  | e => e.writes.forM (requireIncluded included)

/-- A list of paths as a sorted set. -/
def sortedPaths (ps : List Path) : List Path :=
  ps.dedup.insertionSort fun p q => renderPath p ≤ renderPath q

/-- The paths of the edits that are read and not changed, sorted. -/
def readOnlyPaths (edits : List FileEdit) : List Path :=
  sortedPaths ((edits.flatMap Edit.reads).filter fun p => p ∉ edits.flatMap Edit.writes)

/-- A source that is only read has to exist. -/
def requireSource (baseTree : Node) (p : Path) : Except StoreError Unit :=
  if (headAt baseTree p).present then .ok ()
  else .error (.precondition ("copy source " ++ renderPath p ++ " does not exist"))

/-- `validateFileEditsReading`, with `requireBlob`. -/
def validateFileEdits (blobs : Table BlobID Blob) (included readable : List Path) (baseTree : Node)
    (edits : List FileEdit) : Except StoreError ValidatedEdits := do
  let edits ← edits.mapM normalizeEdit
  let edits ← edits.mapM (hydrateBlobMetadata blobs)
  edits.forM (requireCovered included readable)
  (readOnlyPaths edits).forM (requireSource baseTree)
  let changed := sortedPaths (edits.flatMap Edit.writes)
  return ⟨edits, changed, (changed ++ readOnlyPaths edits).map (pathBase baseTree)⟩

/-! ## Transactions -/

/-- What a request to create a changeset brings. -/
structure NewChangeset where
  slice : SliceID
  title : String
  description : String
  /-- The base commit, by default the ref's. -/
  baseCommit : Option CommitID
  /-- The changeset it is stacked on. -/
  parent : Option ChangesetID
  /-- The parent's patchset, by default its current one. -/
  parentPatchset : Option PatchsetID
deriving DecidableEq

/-- The checks of `attachStackEntryTx` on the parent. -/
def requireParent (s : State) (req : NewChangeset) : Except StoreError Unit :=
  match req.parent with
  | none => .ok ()
  | some parent =>
    match s.changesets.get parent with
    | none => .error (.invalid "parent changeset is not in stack")
    | some c =>
      if c.currentPatchset.isSome ∧
          (req.parentPatchset = none ∨ req.parentPatchset = c.currentPatchset) then .ok ()
      else .error (.conflict "parent patchset is not current")

/-- A changeset as `Create` inserts it. -/
def newChangeset (s : State) (now : Time) (subject : Subject) (req : NewChangeset) : Changeset where
  slice := req.slice
  author := subject
  title := req.title
  description := req.description
  baseCommit := req.baseCommit.getD s.ref
  status := .draft
  currentPatchset := none
  currentNumber := 0
  commit := none
  parent := req.parent
  blockedReason := ""
  updatedAt := now

/-- `Create`: a changeset without a patchset. -/
def create (s : State) (now : Time) (id : ChangesetID) (subject : Subject) (req : NewChangeset) :
    Except StoreError State :=
  match s.slices.get req.slice with
  | none => .error .notFound
  | some _ =>
    match s.changesets.get id with
    | some _ => .error .database
    | none => do
      requireParent s req
      return { s with changesets := s.changesets.set id (newChangeset s now subject req) }

/-- `baseTreeForPatchsetTx`. -/
def baseTreeForPatchset (s : State) : PatchsetBase → Except StoreError Node
  | .commit c =>
    match s.rootTree c with
    | none => .error .notFound
    | some root => .ok root
  | .patchset id =>
    match s.patchsets.get id with
    | none => .error .notFound
    | some ps => .ok ps.resultTree

/-- An error of `ApplyEdits` as the store passes it on: `ErrNotFound` is a conflict. -/
def fromTree {α : Type} : Except TreeError α → Except StoreError α
  | .ok a => .ok a
  | .error .notFound => .error (.conflict "")
  | .error e => .error (.tree e)

/-- The tree a patchset leads to. -/
def resultTreeForPatchset (blobs : Table BlobID Blob) (baseTree : Node) (edits : List FileEdit) :
    Except StoreError Node := do
  let treeEdits ← treeEditsFromPatchset blobs edits
  fromTree (applyEdits baseTree treeEdits)

/-- A patchset as `AddPatchset` inserts it. -/
def newPatchset (id : ChangesetID) (number : Nat) (upload : PatchsetUpload) (v : ValidatedEdits)
    (baseTree resultTree : Node) : Patchset where
  changeset := id
  number := number
  author := upload.author
  kind := upload.kind
  base := upload.base
  baseTree := baseTree
  resultTree := resultTree
  fileEdits := v.fileEdits
  changedPaths := v.changedPaths
  pathBases := v.pathBases
  conflicts := upload.conflicts

/-- A changeset with a new current patchset. -/
def Changeset.withPatchset (c : Changeset) (now : Time) (patchset : PatchsetID) : Changeset :=
  { c with
    currentPatchset := some patchset
    currentNumber := c.currentNumber + 1
    blockedReason := ""
    updatedAt := now }

/-- The current patchset has no conflicts and leads from the same tree to the same tree. -/
def sameAsCurrent (s : State) (c : Changeset) (upload : PatchsetUpload)
    (baseTree resultTree : Node) :
    Option PatchsetID :=
  c.currentPatchset.filter fun current =>
    upload.conflicts = [] ∧
      ∃ ps ∈ s.patchsets.get current, ps.resultTree = resultTree ∧ ps.baseTree = baseTree

/-- `UpdateChangeset` up to the end of `AddPatchset`: the new state and the current patchset. -/
def addPatchset (s : State) (now : Time) (id : ChangesetID) (expected : Option PatchsetID)
    (patchset : PatchsetID) (upload : PatchsetUpload) : Except StoreError (State × PatchsetID) :=
  match s.changesets.get id with
  | none => .error .notFound
  | some c => do
    let baseTree ← baseTreeForPatchset s upload.base
    let v ← validateFileEdits s.blobs upload.includedPaths upload.readablePaths baseTree
      upload.fileEdits
    if c.status = .abandoned ∨ c.status = .submitted then .error (.conflict "")
    else if expected.isSome ∧ c.currentPatchset ≠ expected then .error (.conflict "")
    else do
      let resultTree ← resultTreeForPatchset s.blobs baseTree v.fileEdits
      match sameAsCurrent s c upload baseTree resultTree with
      | some current => .ok (s, current)
      | none =>
        match s.patchsets.get patchset with
        | some _ => .error .database
        | none =>
          .ok ({ s with
              patchsets := s.patchsets.set patchset
                (newPatchset id (c.currentNumber + 1) upload v baseTree resultTree),
              changesets := s.changesets.set id (c.withPatchset now patchset) }, patchset)

/-- `clearRequirementBlockTx`. -/
def Changeset.clearRequirementBlock (c : Changeset) (now : Time) : Changeset :=
  if isRequirementBlock c.blockedReason then { c with blockedReason := "", updatedAt := now } else c

/-- The changeset and current patchset that `Approve` and `ReportCheckResult` act on. -/
def openPatchset (s : State) (id : ChangesetID) : Except StoreError (Changeset × PatchsetID) :=
  match s.changesets.get id with
  | none => .error .notFound
  | some c =>
    match c.currentPatchset with
    | none => .error (.conflict "changeset has no current patchset")
    | some ps =>
      if c.status = .abandoned ∨ c.status = .submitted then .error (.conflict "") else .ok (c, ps)

/-- Insert an approval unless it is there. -/
def addApproval (approvals : List Approval) (a : Approval) : List Approval :=
  if a ∈ approvals then approvals else approvals ++ [a]

/-- `Approve`, of the current patchset. -/
def approve (s : State) (now : Time) (id : ChangesetID) (subject : Subject) :
    Except StoreError (State × PatchsetID) :=
  if trimSpace subject = "" then .error (.invalid "subject is required")
  else do
    let (c, ps) ← openPatchset s id
    return ({ s with
        approvals := addApproval s.approvals ⟨id, ps, trimSpace subject⟩,
        changesets := s.changesets.set id (c.clearRequirementBlock now) }, ps)

/-- `ReportCheckResult`, for the current patchset. -/
def reportCheckResult (s : State) (now : Time) (id : ChangesetID) (subject : Subject)
    (check status : String) : Except StoreError (State × PatchsetID) :=
  if trimSpace subject = "" then .error (.invalid "subject is required")
  else if trimSpace check = "" then .error (.invalid "check name is required")
  else
    match normalizeCheckStatus status with
    | none => .error (.invalid "check status must be pass or fail")
    | some status => do
      let (c, ps) ← openPatchset s id
      return ({ s with
          checkResults := s.checkResults.set (id, ps, trimSpace check) status,
          changesets := s.changesets.set id (c.clearRequirementBlock now) }, ps)

/-- An active changeset is stacked on this one. -/
def hasActiveChild (s : State) (id : ChangesetID) : Bool :=
  s.changesets.rows.any fun r =>
    r.2.parent == some id && r.2.status != .submitted && r.2.status != .abandoned

/-- `Abandon`. -/
def abandon (s : State) (now : Time) (id : ChangesetID) : Except StoreError State :=
  if hasActiveChild s id then .error (.conflict "")
  else
    match s.changesets.get id with
    | none => .error (.conflict "")
    | some c =>
      if c.status = .submitted then .error (.conflict "")
      else .ok { s with changesets := s.changesets.set id { c with status := .abandoned, updatedAt := now } }

/-! ## What each transaction does -/

variable {p : Path}

theorem requireCanonical_bind {α : Type} {x : Except StoreError α} {a : α}
    (h : (requireCanonical p >>= fun _ => x) = .ok a) : canonical p = true ∧ x = .ok a := by
  obtain ⟨⟨⟩, hcanonical, hx⟩ := bind_eq_ok.mp h
  rw [requireCanonical] at hcanonical
  split_ifs at hcanonical with hp
  exact ⟨hp, hx⟩

variable {e e' : FileEdit}

theorem normalizeEdit_paths (h : normalizeEdit e = .ok e') :
    e'.writes = e.writes ∧ e'.reads = e.reads := by
  cases e with
  | upsert =>
    obtain ⟨-, h⟩ := requireCanonical_bind h
    split_ifs at h <;> cases h <;> exact ⟨rfl, rfl⟩
  | delete | mkdir =>
    obtain ⟨-, h⟩ := requireCanonical_bind h
    cases h
    exact ⟨rfl, rfl⟩
  | rename | copy =>
    obtain ⟨-, h⟩ := requireCanonical_bind h
    obtain ⟨-, h⟩ := requireCanonical_bind h
    split_ifs at h
    cases h
    exact ⟨rfl, rfl⟩

variable {blobs : Table BlobID Blob}

theorem hydrateBlobMetadata_paths (h : hydrateBlobMetadata blobs e = .ok e') :
    e'.writes = e.writes ∧ e'.reads = e.reads := by
  cases e with
  | upsert =>
    rw [hydrateBlobMetadata] at h
    split at h
    · cases h
    · split_ifs at h
      cases h
      exact ⟨rfl, rfl⟩
  | delete | mkdir | rename | copy => cases h; exact ⟨rfl, rfl⟩

theorem mem_sortedPaths {ps : List Path} : p ∈ sortedPaths ps ↔ p ∈ ps := by
  rw [sortedPaths, List.mem_insertionSort, List.mem_dedup]

variable {edits : List FileEdit}

theorem mem_basePaths (he : e ∈ edits) (hp : p ∈ e.writes ++ e.reads) :
    p ∈ sortedPaths (edits.flatMap Edit.writes) ++ readOnlyPaths edits := by
  rw [List.mem_append, mem_sortedPaths, readOnlyPaths, mem_sortedPaths, List.mem_filter]
  by_cases hw : p ∈ edits.flatMap Edit.writes
  · exact .inl hw
  · refine .inr ⟨?_, decide_eq_true hw⟩
    rcases List.mem_append.mp hp with hp | hp
    · exact absurd (List.mem_flatMap.mpr ⟨e, he, hp⟩) hw
    · exact List.mem_flatMap.mpr ⟨e, he, hp⟩

/-- Two lists of edits name the same paths, edit by edit. -/
def SamePaths {φ ψ : Type} (l : List (Edit φ)) (l' : List (Edit ψ)) : Prop :=
  List.Forall₂ (fun e e' => e.writes = e'.writes ∧ e.reads = e'.reads) l l'

theorem SamePaths.trans {φ ψ χ : Type} {l₁ : List (Edit φ)} {l₂ : List (Edit ψ)}
    {l₃ : List (Edit χ)} (h : SamePaths l₁ l₂) (h' : SamePaths l₂ l₃) : SamePaths l₁ l₃ := by
  induction h generalizing l₃ with
  | nil =>
    cases h'
    exact .nil
  | cons hab _ ih =>
    cases h' with
    | cons hbc hrest =>
      exact .cons ⟨hab.1.trans hbc.1, hab.2.trans hbc.2⟩ (ih hrest)

/-- What a validation gives: the edits with their paths, and the bases of the paths changed and of
those read. -/
theorem validateFileEdits_ok {included readable : List Path} {baseTree : Node} {v : ValidatedEdits}
    (h : validateFileEdits blobs included readable baseTree edits = .ok v) :
    SamePaths v.fileEdits edits ∧
      v.changedPaths = sortedPaths (v.fileEdits.flatMap Edit.writes) ∧
      v.pathBases = (v.changedPaths ++ readOnlyPaths v.fileEdits).map (pathBase baseTree) := by
  obtain ⟨normalized, hnormalized, h⟩ := bind_eq_ok.mp h
  obtain ⟨hydrated, hhydrated, h⟩ := bind_eq_ok.mp h
  obtain ⟨⟨⟩, -, h⟩ := bind_eq_ok.mp h
  obtain ⟨⟨⟩, -, h⟩ := bind_eq_ok.mp h
  cases h
  refine ⟨?_, rfl, rfl⟩
  have hfirst : SamePaths normalized edits :=
    (forall₂_of_mapM hnormalized).flip.imp fun _ _ he => normalizeEdit_paths he
  have hsecond : SamePaths hydrated normalized :=
    (forall₂_of_mapM hhydrated).flip.imp fun _ _ he => hydrateBlobMetadata_paths he
  exact hsecond.trans hfirst

variable {s s' : State} {now : Time} {id : ChangesetID} {subject : Subject}

theorem create_ok {req : NewChangeset} (h : create s now id subject req = .ok s') :
    s.changesets.get id = none ∧
      s' = { s with changesets := s.changesets.set id (newChangeset s now subject req) } := by
  rw [create] at h
  split at h
  · cases h
  · split at h
    · cases h
    · rename_i hnone
      obtain ⟨-, -, hs⟩ := bind_eq_ok.mp h
      cases hs
      exact ⟨hnone, rfl⟩

/-- A patchset was added: either the current one is the same and stays, or the new one is
current. -/
theorem addPatchset_ok {expected : Option PatchsetID} {patchset r : PatchsetID}
    {upload : PatchsetUpload} (h : addPatchset s now id expected patchset upload = .ok (s', r)) :
    ∃ c baseTree v resultTree, s.changesets.get id = some c ∧ c.status ≠ .abandoned ∧
      c.status ≠ .submitted ∧ baseTreeForPatchset s upload.base = .ok baseTree ∧
      validateFileEdits s.blobs upload.includedPaths upload.readablePaths baseTree
        upload.fileEdits = .ok v ∧
      resultTreeForPatchset s.blobs baseTree v.fileEdits = .ok resultTree ∧
      ((s' = s ∧ sameAsCurrent s c upload baseTree resultTree = some r) ∨
        (r = patchset ∧ s.patchsets.get patchset = none ∧
          s' = { s with
            patchsets := s.patchsets.set patchset
              (newPatchset id (c.currentNumber + 1) upload v baseTree resultTree),
            changesets := s.changesets.set id (c.withPatchset now patchset) })) := by
  rw [addPatchset] at h
  split at h
  · cases h
  · rename_i c hc
    obtain ⟨baseTree, hbase, h⟩ := bind_eq_ok.mp h
    obtain ⟨v, hv, h⟩ := bind_eq_ok.mp h
    split at h
    · cases h
    · rename_i hstatus
      obtain ⟨hab, hsub⟩ := not_or.mp hstatus
      split at h
      · cases h
      · obtain ⟨resultTree, hresult, h⟩ := bind_eq_ok.mp h
        refine ⟨c, baseTree, v, resultTree, hc, hab, hsub, hbase, hv, hresult, ?_⟩
        split at h
        · rename_i current hcurrent
          cases h
          exact .inl ⟨rfl, hcurrent⟩
        · split at h
          · cases h
          · rename_i hfree
            cases h
            exact .inr ⟨rfl, hfree, rfl⟩

variable {ps : PatchsetID}

theorem openPatchset_ok {c : Changeset} (h : openPatchset s id = .ok (c, ps)) :
    s.changesets.get id = some c ∧
      c.currentPatchset = some ps ∧ c.status ≠ .abandoned ∧ c.status ≠ .submitted := by
  rw [openPatchset] at h
  split at h
  · cases h
  · rename_i hc
    split at h
    · cases h
    · rename_i hps
      split at h
      · cases h
      · rename_i hstatus
        cases h
        exact ⟨hc, hps, not_or.mp hstatus⟩

theorem approve_ok (h : approve s now id subject = .ok (s', ps)) :
    ∃ c, openPatchset s id = .ok (c, ps) ∧ trimSpace subject ≠ "" ∧
      s' = { s with
        approvals := addApproval s.approvals ⟨id, ps, trimSpace subject⟩,
        changesets := s.changesets.set id (c.clearRequirementBlock now) } := by
  rw [approve] at h
  split at h
  · cases h
  · rename_i hsubject
    obtain ⟨⟨c, ps'⟩, hopen, h⟩ := bind_eq_ok.mp h
    cases h
    exact ⟨c, hopen, hsubject, rfl⟩

theorem reportCheckResult_ok {check status : String}
    (h : reportCheckResult s now id subject check status = .ok (s', ps)) :
    ∃ c status', openPatchset s id = .ok (c, ps) ∧ normalizeCheckStatus status = some status' ∧
      s' = { s with
        checkResults := s.checkResults.set (id, ps, trimSpace check) status',
        changesets := s.changesets.set id (c.clearRequirementBlock now) } := by
  rw [reportCheckResult] at h
  split at h
  · cases h
  · split at h
    · cases h
    · split at h
      · cases h
      · rename_i status' hstatus
        obtain ⟨⟨c, ps'⟩, hopen, h⟩ := bind_eq_ok.mp h
        cases h
        exact ⟨c, status', hopen, hstatus, rfl⟩

theorem abandon_ok (h : abandon s now id = .ok s') :
    ∃ c, s.changesets.get id = some c ∧ hasActiveChild s id = false ∧ c.status ≠ .submitted ∧
      s' = { s with
        changesets := s.changesets.set id { c with status := .abandoned, updatedAt := now } } := by
  rw [abandon] at h
  split at h
  · cases h
  · rename_i hchild
    split at h
    · cases h
    · rename_i c hc
      split at h
      · cases h
      · rename_i hstatus
        cases h
        exact ⟨c, hc, by simpa using hchild, hstatus, rfl⟩

end GitSlice
