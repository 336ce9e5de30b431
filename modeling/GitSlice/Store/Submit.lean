import GitSlice.Store.Changesets

/-! # Submit
`submitOnce` (`changeset_submit.go`): the one transaction that admits a patchset. It ends in one of
four ways. It answers without a change (the changeset is admitted or landed already); it fails and
is rolled back; it is blocked, which stores the reason and is committed, with the path heads it had
to initialise; or it admits the current patchset, which moves the path heads, queues a row in
`pending_publish` and makes the changeset wait.

`submitOnce_cases` lists the four, and `admission_ok` says what an admission has checked. -/

namespace GitSlice

open GitSlice.Except

/-- The answer of a submit: `SubmitChangesetResponse`. -/
structure SubmitResponse where
  status : ChangesetStatus
  /-- The commit, of a landed changeset. -/
  commit : Option CommitID
  /-- The row that waits. -/
  pending : Option Nat
deriving DecidableEq

/-- The parameters of `submitOnce`. -/
structure SubmitRequest where
  changeset : ChangesetID
  /-- The patchset that has to be the current one, if given. -/
  expected : Option PatchsetID
  /-- Check results to count besides the stored ones. -/
  extra : List (String × String)
  /-- Whether approvals and checks are left out (`SubmitBypassingRequirements`). -/
  bypassRequirements : Bool
deriving DecidableEq

/-- Why a submit does not admit. -/
inductive SubmitStop where
  /-- There is nothing to do. -/
  | answered (response : SubmitResponse)
  /-- It fails, and the transaction is rolled back. -/
  | refused (error : StoreError)
  /-- It is blocked (`blockSubmitTx`): the reason and the heads are stored. -/
  | blocked (reason : String) (heads : Table Path PathHead)

/-- What a submit admits. -/
structure Admission where
  changeset : Changeset
  patchset : PatchsetID
  /-- The path heads after its edits. -/
  heads : Table Path PathHead

/-! ## The checks, in order -/

/-- The changeset with its current patchset, when a submit has something to decide. -/
def openForSubmit (s : State) (req : SubmitRequest) :
    Except SubmitStop (Changeset × PatchsetID × Patchset) :=
  match s.changesets.get req.changeset with
  | none => .error (.refused .notFound)
  | some c =>
    if c.status = .abandoned then .error (.refused (.conflict ""))
    else if c.status = .submitted ∧ c.commit.isSome then
      .error (.answered ⟨.submitted, c.commit, none⟩)
    else if c.status = .pendingPublish then
      match s.pendingPublish.find? fun r => r.changeset = req.changeset ∧ r.status = .pending with
      | some r => .error (.answered ⟨.pendingPublish, none, some r.sequence⟩)
      | none => .error (.refused (.conflict ""))
    else if req.expected.isSome ∧ c.currentPatchset ≠ req.expected then
      .error (.refused (.conflict ""))
    else
      match c.currentPatchset with
      | none => .error (.refused (.conflict ""))
      | some id =>
        match s.patchsets.get id with
        | none => .error (.refused .notFound)
        | some ps =>
          if ps.conflicts = [] then .ok (c, id, ps)
          else .error (.refused (.conflict "unresolved patchset conflicts"))

/-- The changeset it is stacked on is admitted or landed. -/
def requireParentAdmitted (s : State) (c : Changeset) : Except SubmitStop Unit :=
  match c.parent with
  | none => .ok ()
  | some id =>
    match s.changesets.get id with
    | none => .error (.refused .notFound)
    | some parent =>
      if parent.status = .submitted ∨ parent.status = .pendingPublish then .ok ()
      else .error (.blocked "BlockedOnBaseChangeset" s.pathHeads)

/-- `approvalSubjectsTx`. -/
def approvalSubjects (s : State) (id : ChangesetID) (patchset : PatchsetID) : List Subject :=
  (s.approvals.filter fun a => a.changeset = id ∧ a.patchset = patchset).map Approval.subject

/-- `checkStatusesTx`. -/
def checkStatuses (s : State) (id : ChangesetID) (patchset : PatchsetID) : CheckStatuses :=
  fun name => s.checkResults.get (id, patchset, name)

/-- The patchset meets the latest definition of the slice. -/
def requireDefinition (s : State) (req : SubmitRequest) (c : Changeset) (id : PatchsetID)
    (ps : Patchset) : Except SubmitStop Unit :=
  match s.slices.get c.slice with
  | none => .error (.refused .notFound)
  | some slice =>
    match ps.changedPaths.find? fun p => !inAnyPrefix slice.includedPaths p with
    | some p =>
      .error (.blocked ("changed path " ++ renderPath p ++
        " is outside latest slice definition, refresh the changeset") s.pathHeads)
    | none =>
      let reason := evaluateSubmitRequirements slice c.author (approvalSubjects s req.changeset id)
        (mergeCheckStatuses (checkStatuses s req.changeset id) req.extra)
      if reason ≠ "" ∧ req.bypassRequirements = false then .error (.blocked reason s.pathHeads)
      else .ok ()

/-- `validateAcceptedPathBasesTx`: the path heads, with those it had to initialise. -/
def requirePathBases (s : State) (ps : Patchset) : Except SubmitStop (Table Path PathHead) :=
  match acceptedHeads s ps.pathBases with
  | .error e => .error (.refused e)
  | .ok heads =>
    if pathBasesHold heads ps.pathBases then .ok heads
    else .error (.blocked staleBaseReason heads)

/-- `applyPathHeadEditsTx`, whose errors roll the submit back. -/
def headsAfterEdits (s : State) (heads : Table Path PathHead) (edits : List FileEdit) :
    Except SubmitStop (Table Path PathHead) :=
  match applyPathHeadEdits s.blobs heads edits with
  | .error e => .error (.refused e)
  | .ok heads => .ok heads

/-- A changeset has one row in `pending_publish`. -/
def requireNoRow (s : State) (id : ChangesetID) : Except SubmitStop Unit :=
  if s.pendingPublish.any fun r => r.changeset = id then .error (.refused .database) else .ok ()

/-- The checks of `submitOnce`. -/
def admission (s : State) (req : SubmitRequest) : Except SubmitStop Admission := do
  let (c, id, ps) ← openForSubmit s req
  requireParentAdmitted s c
  requireDefinition s req c id ps
  let heads ← requirePathBases s ps
  let heads ← headsAfterEdits s heads ps.fileEdits
  requireNoRow s req.changeset
  return ⟨c, id, heads⟩

/-! ## The transaction -/

/-- `blockSubmitTx`. -/
def blockSubmit (s : State) (now : Time) (id : ChangesetID) (reason : String)
    (heads : Table Path PathHead) : State :=
  { s with
    pathHeads := heads
    changesets := s.changesets.update fun k c =>
      if k = id then { c with blockedReason := reason, updatedAt := now } else c }

/-- The row of an admitted patchset. An admission is one step here, so sequence numbers are drawn in
the order in which admissions commit. The source draws one from a `bigserial` at the insert: two
transactions that are open together, on different paths, may commit in the other order. -/
def newPendingPublish (s : State) (now : Time) (id : ChangesetID) (patchset : PatchsetID) :
    PendingPublish where
  sequence := s.nextSequence
  changeset := id
  patchset := patchset
  baseRefCommit := s.ref
  status := .pending
  commit := none
  updatedAt := now

/-- The state after an admission. -/
def admitted (s : State) (now : Time) (id : ChangesetID) (a : Admission) : State :=
  { s with
    pathHeads := a.heads
    pendingPublish := s.pendingPublish ++ [newPendingPublish s now id a.patchset]
    nextSequence := s.nextSequence + 1
    changesets := s.changesets.set id
      { a.changeset with status := .pendingPublish, blockedReason := "", updatedAt := now } }

/-- One try to admit the current patchset. -/
def submitOnce (s : State) (now : Time) (req : SubmitRequest) :
    State × Except StoreError SubmitResponse :=
  match admission s req with
  | .error (.answered response) => (s, .ok response)
  | .error (.refused e) => (s, .error e)
  | .error (.blocked reason heads) =>
    (blockSubmit s now req.changeset reason heads, .error (.conflict reason))
  | .ok a => (admitted s now req.changeset a, .ok ⟨.pendingPublish, none, some s.nextSequence⟩)

/-! ## What it checks and what it does -/

variable {s : State} {req : SubmitRequest} {ps : Patchset} {id : PatchsetID} {c : Changeset}

theorem openForSubmit_ok (h : openForSubmit s req = .ok (c, id, ps)) :
    s.changesets.get req.changeset = some c ∧ c.status ≠ .abandoned ∧ c.status ≠ .pendingPublish ∧
      (c.status = .submitted → c.commit = none) ∧
        (req.expected.isSome → c.currentPatchset = req.expected) ∧
      c.currentPatchset = some id ∧ s.patchsets.get id = some ps ∧ ps.conflicts = [] := by
  rw [openForSubmit] at h
  split at h
  · cases h
  · rename_i c' hc
    split_ifs at h with hab hsub hpend hexp
    · split at h <;> cases h
    · split at h
      · cases h
      · rename_i id' hid
        split at h
        · cases h
        · rename_i ps' hps
          split_ifs at h with hconf
          cases h
          refine ⟨hc, hab, hpend, fun hs => ?_, fun he => ?_, hid, hps, hconf⟩
          · rw [← Option.not_isSome_iff_eq_none]
            exact fun hcommit => hsub ⟨hs, hcommit⟩
          · by_contra hne
            exact hexp ⟨he, hne⟩

/-- How a submit stops before it decides: with an answer, or with one of three errors. -/
theorem openForSubmit_error {stop : SubmitStop} (h : openForSubmit s req = .error stop) :
    (∃ r, stop = .answered r) ∨
      ∃ e, stop = .refused e ∧
        (e = .notFound ∨ e = .conflict "" ∨ e = .conflict "unresolved patchset conflicts") := by
  rw [openForSubmit] at h
  split at h
  · cases h
    exact .inr ⟨_, rfl, .inl rfl⟩
  · split_ifs at h
    · cases h
      exact .inr ⟨_, rfl, .inr (.inl rfl)⟩
    · cases h
      exact .inl ⟨_, rfl⟩
    · split at h
      · cases h
        exact .inl ⟨_, rfl⟩
      · cases h
        exact .inr ⟨_, rfl, .inr (.inl rfl)⟩
    · cases h
      exact .inr ⟨_, rfl, .inr (.inl rfl)⟩
    · split at h
      · cases h
        exact .inr ⟨_, rfl, .inr (.inl rfl)⟩
      · split at h
        · cases h
          exact .inr ⟨_, rfl, .inl rfl⟩
        · split_ifs at h
          cases h
          exact .inr ⟨_, rfl, .inr (.inr rfl)⟩

theorem requireDefinition_ok (h : requireDefinition s req c id ps = .ok ()) :
    ∃ slice, s.slices.get c.slice = some slice ∧
      (∀ p ∈ ps.changedPaths, inAnyPrefix slice.includedPaths p = true) ∧
      (req.bypassRequirements = false →
        evaluateSubmitRequirements slice c.author (approvalSubjects s req.changeset id)
          (mergeCheckStatuses (checkStatuses s req.changeset id) req.extra) = "") := by
  rw [requireDefinition] at h
  split at h
  · cases h
  · rename_i slice hslice
    split at h
    · cases h
    · rename_i hpaths
      dsimp only at h
      split_ifs at h with hreason
      refine ⟨slice, hslice, fun p hp => ?_, fun hb => ?_⟩
      · simpa using List.find?_eq_none.mp hpaths p hp
      · by_contra hne
        exact hreason ⟨hne, hb⟩

variable {heads : Table Path PathHead}

theorem requirePathBases_ok (h : requirePathBases s ps = .ok heads) :
    acceptedHeads s ps.pathBases = .ok heads ∧ pathBasesHold heads ps.pathBases = true := by
  rw [requirePathBases] at h
  split at h
  · cases h
  · rename_i heads' hheads
    split_ifs at h with hhold
    cases h
    exact ⟨hheads, hhold⟩

theorem headsAfterEdits_ok {heads' : Table Path PathHead} {edits : List FileEdit}
    (h : headsAfterEdits s heads edits = .ok heads') :
    applyPathHeadEdits s.blobs heads edits = .ok heads' := by
  rw [headsAfterEdits] at h
  split at h
  · cases h
  · cases h
    assumption

theorem requireNoRow_ok {id : ChangesetID} (h : requireNoRow s id = .ok ()) :
    ∀ r ∈ s.pendingPublish, r.changeset ≠ id := by
  rw [requireNoRow] at h
  split_ifs at h with hany
  simpa using hany

/-- What an admission has checked. -/
structure Admits (s : State) (req : SubmitRequest) (a : Admission) (ps : Patchset) : Prop where
  opened : openForSubmit s req = .ok (a.changeset, a.patchset, ps)
  parent : requireParentAdmitted s a.changeset = .ok ()
  definition : requireDefinition s req a.changeset a.patchset ps = .ok ()
  heads : ∃ heads, requirePathBases s ps = .ok heads ∧
    headsAfterEdits s heads ps.fileEdits = .ok a.heads
  noRow : ∀ r ∈ s.pendingPublish, r.changeset ≠ req.changeset

theorem admission_ok {a : Admission} (h : admission s req = .ok a) : ∃ ps, Admits s req a ps := by
  obtain ⟨⟨c, id, ps⟩, hopen, h⟩ := bind_eq_ok.mp h
  obtain ⟨⟨⟩, hparent, h⟩ := bind_eq_ok.mp h
  obtain ⟨⟨⟩, hdef, h⟩ := bind_eq_ok.mp h
  obtain ⟨heads, hbases, h⟩ := bind_eq_ok.mp h
  obtain ⟨heads', hedits, h⟩ := bind_eq_ok.mp h
  obtain ⟨⟨⟩, hrow, h⟩ := bind_eq_ok.mp h
  cases h
  exact ⟨ps, hopen, hparent, hdef, ⟨heads, hbases, hedits⟩, requireNoRow_ok hrow⟩

/-- The heads a blocked submit stores: those there were, or with the rows made for the patchset. -/
theorem admission_blocked {reason : String} (h : admission s req = .error (.blocked reason heads)) :
    heads = s.pathHeads ∨ ∃ c id ps, openForSubmit s req = .ok (c, id, ps) ∧
      acceptedHeads s ps.pathBases = .ok heads := by
  rcases bind_eq_error.mp h with hopen | ⟨⟨c, id, ps⟩, hopen, h⟩
  · obtain ⟨r, hr⟩ | ⟨e, hr, -⟩ := openForSubmit_error hopen
    · cases hr
    · cases hr
  rcases bind_eq_error.mp h with hparent | ⟨⟨⟩, -, h⟩
  · rw [requireParentAdmitted] at hparent
    split at hparent
    · cases hparent
    · split at hparent
      · cases hparent
      · split_ifs at hparent
        cases hparent
        exact .inl rfl
  rcases bind_eq_error.mp h with hdef | ⟨⟨⟩, -, h⟩
  · rw [requireDefinition] at hdef
    split at hdef
    · cases hdef
    · split at hdef
      · cases hdef
        exact .inl rfl
      · dsimp only at hdef
        split_ifs at hdef
        cases hdef
        exact .inl rfl
  rcases bind_eq_error.mp h with hbases | ⟨heads', -, h⟩
  · rw [requirePathBases] at hbases
    split at hbases
    · cases hbases
    · rename_i heads' hheads
      split_ifs at hbases
      cases hbases
      exact .inr ⟨c, id, ps, hopen, hheads⟩
  rcases bind_eq_error.mp h with hedits | ⟨heads'', -, h⟩
  · rw [headsAfterEdits] at hedits
    split at hedits <;> cases hedits
  rcases bind_eq_error.mp h with hrow | ⟨⟨⟩, -, h⟩
  · rw [requireNoRow] at hrow
    split_ifs at hrow
    cases hrow
  · cases h

theorem submitOnce_cases (s : State) (now : Time) (req : SubmitRequest) :
    (submitOnce s now req).1 = s ∨
      (∃ reason heads, admission s req = .error (.blocked reason heads) ∧
        (submitOnce s now req).1 = blockSubmit s now req.changeset reason heads) ∨
      ∃ a ps, Admits s req a ps ∧ (submitOnce s now req).1 = admitted s now req.changeset a := by
  rw [submitOnce]
  split
  · exact .inl rfl
  · exact .inl rfl
  · rename_i reason heads h
    exact .inr (.inl ⟨reason, heads, h, rfl⟩)
  · rename_i a h
    obtain ⟨ps, hps⟩ := admission_ok h
    exact .inr (.inr ⟨a, ps, hps, rfl⟩)

end GitSlice
