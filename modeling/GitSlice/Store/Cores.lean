import GitSlice.Store.Step

/-! # What review looks at
A submit decides by the changeset's author, slice and current patchset, by the patchset's row, by
the approvals and by the check results. Few transactions change any of these: a push adds a patchset
and makes it current, an approval and a check result are recorded for the current patchset, and
nothing else. `Transition.core` says so once, with the rest of a changeset's row (its status, its
commit, the reason it is blocked with) left out. -/

namespace GitSlice

open Table Function

/-- The part of a changeset that only a push changes. -/
structure ChangesetCore where
  slice : SliceID
  author : Subject
  /-- The changeset it is stacked on. -/
  parent : Option ChangesetID
  currentPatchset : Option PatchsetID
  /-- The number of that patchset. -/
  currentNumber : Nat
deriving DecidableEq

/-- The core of a row. -/
def Changeset.core (c : Changeset) : ChangesetCore :=
  ⟨c.slice, c.author, c.parent, c.currentPatchset, c.currentNumber⟩

/-- The cores of the changesets. -/
def State.core (s : State) (id : ChangesetID) : Option ChangesetCore :=
  (s.changesets.get id).map Changeset.core

variable {s : State} {id : ChangesetID}

theorem State.core_eq_some {c : Changeset} (h : s.changesets.get id = some c) :
    s.core id = some c.core := by
  rw [State.core, h, Option.map_some]

variable {c : ChangesetCore}

theorem State.core_some (h : s.core id = some c) :
    ∃ row, s.changesets.get id = some row ∧ row.core = c := by
  rwa [State.core, Option.map_eq_some_iff] at h

variable {s' : State}

theorem core_of_set (c' : Changeset) (h : s'.changesets = s.changesets.set id c') :
    s'.core = Function.update s.core id (some c'.core) := by
  funext k
  rw [State.core, h, get_set, update_apply]
  split_ifs
  · rfl
  · rfl

theorem core_of_set_same {c c' : Changeset} (h : s'.changesets = s.changesets.set id c')
    (hc : s.changesets.get id = some c) (hcore : c'.core = c.core) : s'.core = s.core := by
  rw [core_of_set c' h, hcore, ← State.core_eq_some hc]
  exact update_eq_self id s.core

theorem core_of_update (f : ChangesetID → Changeset → Changeset)
    (h : s'.changesets = s.changesets.update f)
    (hcore : ∀ k c, (f k c).core = c.core) : s'.core = s.core := by
  funext k
  rw [State.core, h, get_update, Option.map_map]
  congr 1
  funext c
  exact hcore k c

@[simp] theorem core_clearRequirementBlock (c : Changeset) (now : Time) :
    (c.clearRequirementBlock now).core = c.core := by
  unfold Changeset.clearRequirementBlock
  split
  · rfl
  · rfl

/-- Nothing that review looks at changes. -/
structure SameCores (s s' : State) : Prop where
  core : s'.core = s.core
  patchsets : s'.patchsets = s.patchsets
  approvals : s'.approvals = s.approvals
  checkResults : s'.checkResults = s.checkResults

theorem SameCores.trans {s₁ s₂ s₃ : State} (h₁ : SameCores s₁ s₂) (h₂ : SameCores s₂ s₃) :
    SameCores s₁ s₃ :=
  ⟨h₂.core.trans h₁.core, h₂.patchsets.trans h₁.patchsets, h₂.approvals.trans h₁.approvals,
    h₂.checkResults.trans h₁.checkResults⟩

/-- What a transaction does to what review looks at. -/
inductive CoreMove (s : State) : Action → State → Prop where
  | kept (a : Action) (s' : State) (h : SameCores s s') : CoreMove s a s'
  | created (now : Time) (id : ChangesetID) (subject : Subject) (req : NewChangeset) (s' : State)
    (hnew : s.core id = none)
    (hcore : s'.core = Function.update s.core id (some ⟨req.slice, subject, req.parent, none, 0⟩))
    (hpatchsets : s'.patchsets = s.patchsets) (happrovals : s'.approvals = s.approvals)
    (hresults : s'.checkResults = s.checkResults) :
    CoreMove s (.create now id subject req) s'
  | pushed (now : Time) (id : ChangesetID) (expected : Option PatchsetID) (patchset : PatchsetID)
    (upload : PatchsetUpload) (s' : State) (c : ChangesetCore) (blobs : Table BlobID Blob)
    (v : ValidatedEdits) (baseTree resultTree : Node) (hc : s.core id = some c)
    (hnew : s.patchsets.get patchset = none)
    (hv : validateFileEdits blobs upload.includedPaths upload.readablePaths baseTree
      upload.fileEdits = .ok v)
    (hpatchsets : s'.patchsets = s.patchsets.set patchset
      (newPatchset id (c.currentNumber + 1) upload v baseTree resultTree))
    (hcore : s'.core = Function.update s.core id
      (some { c with currentPatchset := some patchset, currentNumber := c.currentNumber + 1 }))
    (happrovals : s'.approvals = s.approvals) (hresults : s'.checkResults = s.checkResults) :
    CoreMove s (.addPatchset now id expected patchset upload) s'
  | approved (now : Time) (id : ChangesetID) (subject : Subject) (s' : State) (c : ChangesetCore)
    (ps : PatchsetID) (hc : s.core id = some c) (hcurrent : c.currentPatchset = some ps)
    (hcore : s'.core = s.core) (hpatchsets : s'.patchsets = s.patchsets)
    (happrovals : s'.approvals = addApproval s.approvals ⟨id, ps, trimSpace subject⟩)
    (hresults : s'.checkResults = s.checkResults) :
    CoreMove s (.approve now id subject) s'
  | reported (now : Time) (id : ChangesetID) (subject : Subject) (check status : String) (s' : State)
    (c : ChangesetCore) (ps : PatchsetID) (status' : String) (hc : s.core id = some c)
    (hcurrent : c.currentPatchset = some ps) (hstatus : normalizeCheckStatus status = some status')
    (hcore : s'.core = s.core) (hpatchsets : s'.patchsets = s.patchsets)
    (happrovals : s'.approvals = s.approvals)
    (hresults : s'.checkResults = s.checkResults.set (id, ps, trimSpace check) status') :
    CoreMove s (.reportCheckResult now id subject check status) s'

variable {a : Action}

theorem Transition.core (h : Transition s a s') : CoreMove s a s' := by
  cases h with
  | refused | setSlice | putBlob | reap | build | fail | reset => exact .kept _ _ ⟨rfl, rfl, rfl, rfl⟩
  | create now id subject req hnew =>
    refine .created now id subject req _ ?_ (core_of_set (newChangeset s now subject req) rfl) rfl rfl rfl
    rw [State.core, hnew, Option.map_none]
  | addPatchset now id expected patchset upload c baseTree v resultTree hc hab hsub hbase hv hresult
      hnew =>
    exact .pushed now id expected patchset upload _ c.core s.blobs v baseTree resultTree
      (State.core_eq_some hc) hnew hv rfl (core_of_set (c.withPatchset now patchset) rfl) rfl rfl
  | approve now id subject c ps hopen =>
    obtain ⟨hc, hcurrent, -⟩ := openPatchset_ok hopen
    exact .approved now id subject _ c.core ps (State.core_eq_some hc) hcurrent
      (core_of_set_same rfl hc (core_clearRequirementBlock c now)) rfl rfl rfl
  | reportCheckResult now id subject check status c ps status' hopen hstatus =>
    obtain ⟨hc, hcurrent, -⟩ := openPatchset_ok hopen
    exact .reported now id subject check status _ c.core ps status' (State.core_eq_some hc) hcurrent
      hstatus (core_of_set_same rfl hc (core_clearRequirementBlock c now)) rfl rfl rfl
  | blocked now req reason =>
    refine .kept _ _ ⟨core_of_update (fun k c => if k = req.changeset then
      { c with blockedReason := reason, updatedAt := now } else c) rfl ?_, rfl, rfl, rfl⟩
    intro k c
    split
    · rfl
    · rfl
  | admitted now req a ps ha =>
    exact .kept _ _ ⟨core_of_set_same rfl (openForSubmit_ok ha.opened).1 rfl, rfl, rfl, rfl⟩
  | abandon now id c hc => exact .kept _ _ ⟨core_of_set_same rfl hc rfl, rfl, rfl, rfl⟩
  | claim p now limit s' claim hidle hclaim =>
    obtain ⟨-, -, -, rfl⟩ := claimPendingPublishBatch_some hclaim
    exact .kept _ _ ⟨rfl, rfl, rfl, rfl⟩
  | publish p now claim build =>
    have hmarked : markChangesetsSubmitted now build.entries s.changesets = s.changesets.update _ :=
      rfl
    refine .kept _ _ ⟨core_of_update _ hmarked ?_, rfl, rfl, rfl⟩
    intro k c
    split
    · rfl
    · rfl
  | stop => exact .kept _ _ ⟨rfl, rfl, rfl, rfl⟩

theorem CoreMove.of_same {t : State} (h : SameCores s t) (hm : CoreMove t a s') :
    CoreMove s a s' := by
  cases hm with
  | kept a s' hsame => exact .kept a s' (h.trans hsame)
  | created now id subject req s' hnew hcore hpatchsets happrovals hresults =>
    rw [h.core] at hnew hcore
    exact .created now id subject req s' hnew hcore (hpatchsets.trans h.patchsets)
      (happrovals.trans h.approvals) (hresults.trans h.checkResults)
  | pushed now id expected patchset upload s' c blobs v baseTree resultTree hc hnew hv hpatchsets hcore
      happrovals hresults =>
    rw [h.core] at hc hcore
    rw [h.patchsets] at hnew hpatchsets
    exact .pushed now id expected patchset upload s' c blobs v baseTree resultTree hc hnew hv hpatchsets
      hcore (happrovals.trans h.approvals) (hresults.trans h.checkResults)
  | approved now id subject s' c ps hc hcurrent hcore hpatchsets happrovals hresults =>
    rw [h.core] at hc
    rw [h.approvals] at happrovals
    exact .approved now id subject s' c ps hc hcurrent (hcore.trans h.core)
      (hpatchsets.trans h.patchsets)
      happrovals (hresults.trans h.checkResults)
  | reported now id subject check status s' c ps status' hc hcurrent hstatus hcore hpatchsets happrovals
      hresults =>
    rw [h.core] at hc
    rw [h.checkResults] at hresults
    exact .reported now id subject check status s' c ps status' hc hcurrent hstatus
      (hcore.trans h.core)
      (hpatchsets.trans h.patchsets) (happrovals.trans h.approvals) hresults

theorem step_core (s : State) (a : Action) : CoreMove s a (step s a) := (step_transition s a).core

/-! ## Patchsets and their numbers -/

/-- The patchsets of a changeset are numbered from 1 to the current one, which is there, and
approvals are of patchsets that are there. -/
structure CoresSound (s : State) : Prop where
  current : ∀ id c p, s.core id = some c → c.currentPatchset = some p →
    ∃ ps, s.patchsets.get p = some ps ∧ ps.changeset = id ∧ ps.number = c.currentNumber
  noCurrent : ∀ id c, s.core id = some c → c.currentPatchset = none → c.currentNumber = 0
  owned : ∀ p ps, s.patchsets.get p = some ps →
    ∃ c, s.core ps.changeset = some c ∧ 1 ≤ ps.number ∧ ps.number ≤ c.currentNumber
  numbers : ∀ p q ps qs, s.patchsets.get p = some ps → s.patchsets.get q = some qs →
    ps.changeset = qs.changeset → ps.number = qs.number → p = q
  approvals : ∀ a ∈ s.approvals, ∃ ps, s.patchsets.get a.patchset = some ps ∧
    ps.changeset = a.changeset

theorem coresSound_start (root : Node) : CoresSound (State.start root) where
  current := by simp [State.core, State.start]
  noCurrent := by simp [State.core, State.start]
  owned := by simp [State.start]
  numbers := by simp [State.start]
  approvals := by simp [State.start]

theorem CoresSound.of_eq (h : CoresSound s) (hcore : s'.core = s.core)
    (hpatchsets : s'.patchsets = s.patchsets)
    (happrovals : ∀ a ∈ s'.approvals, ∃ ps, s'.patchsets.get a.patchset = some ps ∧
      ps.changeset = a.changeset) : CoresSound s' where
  current := by
    rw [hcore, hpatchsets]
    exact h.current
  noCurrent := by
    rw [hcore]
    exact h.noCurrent
  owned := by
    rw [hcore, hpatchsets]
    exact h.owned
  numbers := by
    rw [hpatchsets]
    exact h.numbers
  approvals := happrovals

theorem mem_addApproval {approvals : List Approval} {a b : Approval}
    (h : b ∈ addApproval approvals a) :
    b ∈ approvals ∨ b = a := by
  unfold addApproval at h
  split at h
  · exact .inl h
  · simpa using h

theorem CoresSound.pushed (h : CoresSound s) {p : PatchsetID} {ps : Patchset}
    (hc : s.core id = some c) (hnew : s.patchsets.get p = none) (hid : ps.changeset = id)
    (hnumber : ps.number = c.currentNumber + 1) (hpatchsets : s'.patchsets = s.patchsets.set p ps)
    (hcore : s'.core = Function.update s.core id
      (some { c with currentPatchset := some p, currentNumber := c.currentNumber + 1 }))
    (happrovals : s'.approvals = s.approvals) : CoresSound s' := by
  have hkept : s.patchsets.Extends s'.patchsets := hpatchsets ▸ extends_set hnew ps
  -- a patchset is the new one or an old one with a smaller number
  have hcases : ∀ {q qs}, s'.patchsets.get q = some qs → (q = p ∧ qs = ps) ∨
      s.patchsets.get q = some qs := by
    intro q qs hq
    rw [hpatchsets] at hq
    exact (get_set_cases hq).imp_right And.right
  have hbelow : ∀ {q qs}, s.patchsets.get q = some qs → qs.changeset = id →
      qs.number < ps.number := by
    intro q qs hq hqid
    obtain ⟨d, hd, -, hle⟩ := h.owned q qs hq
    rw [hqid, hc] at hd
    cases hd
    omega
  refine ⟨?_, ?_, ?_, ?_, ?_⟩
  · intro k d q hd hq
    rw [hcore, update_apply] at hd
    split_ifs at hd with hk
    · cases hd
      cases hq
      exact ⟨ps, by rw [hpatchsets, get_set_self], by rw [hid, hk], hnumber⟩
    · obtain ⟨qs, hqs, hqid, hqnumber⟩ := h.current k d q hd hq
      exact ⟨qs, hkept _ _ hqs, hqid, hqnumber⟩
  · intro k d hd hnone
    rw [hcore, update_apply] at hd
    split_ifs at hd with hk
    · cases hd
      cases hnone
    · exact h.noCurrent k d hd hnone
  · intro q qs hq
    rcases hcases hq with ⟨-, rfl⟩ | hq
    · refine ⟨_, by rw [hcore, hid, update_self], ?_, ?_⟩
      · omega
      · exact hnumber.le
    · obtain ⟨d, hd, hone, hle⟩ := h.owned q qs hq
      rw [hcore, update_apply]
      split_ifs with hk
      · rw [hk, hc] at hd
        cases hd
        exact ⟨_, rfl, hone, Nat.le_succ_of_le hle⟩
      · exact ⟨d, hd, hone, hle⟩
  · intro q r qs rs hq hr hsame hnum
    rcases hcases hq with ⟨rfl, rfl⟩ | hq
    · rcases hcases hr with ⟨rfl, rfl⟩ | hr
      · rfl
      · have := hbelow hr (hsame ▸ hid)
        omega
    · rcases hcases hr with ⟨rfl, rfl⟩ | hr
      · have := hbelow hq (hsame.trans hid)
        omega
      · exact h.numbers q r qs rs hq hr hsame hnum
  · intro a ha
    rw [happrovals] at ha
    obtain ⟨qs, hqs, hchangeset⟩ := h.approvals a ha
    exact ⟨qs, hkept _ _ hqs, hchangeset⟩

section

variable (hm : CoreMove s a s')
include hm

theorem CoreMove.sound (h : CoresSound s) : CoresSound s' := by
  cases hm with
  | kept a s' hsame =>
    refine h.of_eq hsame.core hsame.patchsets ?_
    rw [hsame.approvals, hsame.patchsets]
    exact h.approvals
  | created now id subject req s' hnew hcore hpatchsets happrovals =>
    refine ⟨?_, ?_, ?_, ?_, ?_⟩
    · intro k c p hk hp
      rw [hcore, update_apply] at hk
      rw [hpatchsets]
      split_ifs at hk
      · cases hk
        cases hp
      · exact h.current k c p hk hp
    · intro k c hk hp
      rw [hcore, update_apply] at hk
      split_ifs at hk
      · cases hk
        rfl
      · exact h.noCurrent k c hk hp
    · intro p ps hp
      rw [hpatchsets] at hp
      obtain ⟨c, hc, hnumber⟩ := h.owned p ps hp
      refine ⟨c, ?_, hnumber⟩
      rw [hcore, update_apply, if_neg, hc]
      rintro rfl
      rw [hnew] at hc
      cases hc
    · rw [hpatchsets]
      exact h.numbers
    · rw [happrovals, hpatchsets]
      exact h.approvals
  | pushed now id expected patchset upload s' c blobs v baseTree resultTree hc hnew hv hpatchsets hcore
      happrovals hresults =>
    exact h.pushed hc hnew rfl rfl hpatchsets hcore happrovals
  | approved now id subject s' c ps hc hcurrent hcore hpatchsets happrovals =>
    refine h.of_eq hcore hpatchsets ?_
    rw [happrovals, hpatchsets]
    intro a ha
    rcases mem_addApproval ha with ha | rfl
    · exact h.approvals a ha
    · obtain ⟨row, hrow, hchangeset, -⟩ := h.current id c ps hc hcurrent
      exact ⟨row, hrow, hchangeset⟩
  | reported now id subject check status s' c ps status' hc hcurrent hstatus hcore hpatchsets happrovals
      hresults =>
    refine h.of_eq hcore hpatchsets ?_
    rw [happrovals, hpatchsets]
    exact h.approvals

theorem CoreMove.extends : s.patchsets.Extends s'.patchsets := by
  cases hm with
  | pushed now id expected patchset upload s' c blobs v baseTree resultTree hc hnew hv hpatchsets =>
    rw [hpatchsets]
    exact extends_set hnew _
  | kept a s' hsame =>
    rw [hsame.patchsets]
    exact .refl _
  | created now id subject req s' hnew hcore hpatchsets
  | approved now id subject s' c ps hc hcurrent hcore hpatchsets
  | reported now id subject check status s' c ps status' hc hcurrent hstatus hcore hpatchsets =>
    rw [hpatchsets]
    exact .refl _

theorem CoreMove.author (hc : s.core id = some c) :
    ∃ c', s'.core id = some c' ∧ c'.author = c.author ∧ c'.slice = c.slice := by
  cases hm with
  | kept a s' hsame => exact ⟨c, by rw [hsame.core, hc], rfl, rfl⟩
  | created now k subject req s' hnew hcore =>
    refine ⟨c, ?_, rfl, rfl⟩
    rw [hcore, update_apply, if_neg, hc]
    rintro rfl
    rw [hnew] at hc
    cases hc
  | pushed now k expected patchset upload s' d blobs v baseTree resultTree hd hnew hv hpatchsets hcore =>
    rw [hcore, update_apply]
    split_ifs with hk
    · rw [hk, hd] at hc
      cases hc
      exact ⟨_, rfl, rfl, rfl⟩
    · exact ⟨c, hc, rfl, rfl⟩
  | approved _ _ _ _ _ _ _ _ hcore | reported _ _ _ _ _ _ _ _ _ _ _ _ hcore =>
    exact ⟨c, by rw [hcore, hc], rfl, rfl⟩

theorem CoreMove.approval {x : Approval} (hx : x ∈ s'.approvals) : x ∈ s.approvals ∨
      ∃ now subject c, a = .approve now x.changeset subject ∧ s.core x.changeset = some c ∧
        c.currentPatchset = some x.patchset ∧ x.subject = trimSpace subject := by
  cases hm with
  | kept a s' hsame =>
    rw [hsame.approvals] at hx
    exact .inl hx
  | approved now id subject s' c ps hc hcurrent hcore hpatchsets happrovals =>
    rw [happrovals] at hx
    rcases mem_addApproval hx with hx | rfl
    · exact .inl hx
    · exact .inr ⟨now, subject, c, rfl, hc, hcurrent, rfl⟩
  | created now id subject req s' hnew hcore hpatchsets happrovals
  | pushed now id expected patchset upload s' c blobs v baseTree resultTree hc hnew hv hpatchsets hcore
      happrovals
  | reported now id subject check status s' c ps status' hc hcurrent hstatus hcore hpatchsets
      happrovals =>
    rw [happrovals] at hx
    exact .inl hx

theorem CoreMove.checkResult {key : ChangesetID × PatchsetID × String}
    {st : String} (hst : s'.checkResults.get key = some st) :
    s.checkResults.get key = some st ∨
      ∃ now subject check status c, a = .reportCheckResult now key.1 subject check status ∧
        s.core key.1 = some c ∧ c.currentPatchset = some key.2.1 ∧ trimSpace check = key.2.2 ∧
        normalizeCheckStatus status = some st := by
  cases hm with
  | kept a s' hsame =>
    rw [hsame.checkResults] at hst
    exact .inl hst
  | reported now id subject check status s' c ps status' hc hcurrent hstatus hcore hpatchsets happrovals
      hresults =>
    rw [hresults] at hst
    rcases get_set_cases hst with ⟨rfl, rfl⟩ | ⟨-, hst⟩
    · exact .inr ⟨now, subject, check, status, c, rfl, hc, hcurrent, rfl, hstatus⟩
    · exact .inl hst
  | created now id subject req s' hnew hcore hpatchsets happrovals hresults
  | pushed now id expected patchset upload s' c blobs v baseTree resultTree hc hnew hv hpatchsets hcore
      happrovals hresults
  | approved now id subject s' c ps hc hcurrent hcore hpatchsets happrovals hresults =>
    rw [hresults] at hst
    exact .inl hst

end

end GitSlice
