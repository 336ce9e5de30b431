import GitSlice.Library.Lists
import GitSlice.Service.History

/-! # The review gate
What a submit has made sure of when it admits a patchset, told over the whole history of the
service: who approved the patchset and when, which results its checks have, that it has no
conflicts, and that it changes only what the slice includes.

The store counts approvals of the patchset by people other than the changeset's author, so one of
them may be who uploaded the patchset; and the results a call brings stand before the recorded ones,
so a check that `submitExtras` counts as skipped passes with a failure on record, whether it was
reported or is the result of a check run. `Vetted` leaves out these two, and a push under a call
that names no patchset. Under it every admission is reviewed (`review_gate`). -/

namespace GitSlice

open List GitSlice.Except

/-! ## What review is -/

section History

variable (srv : Server) (root : Node) (as : List ServiceAction)

/-- The subject called `Approve` while the patchset was the current one of the changeset. -/
def ApprovedWhileCurrent (id : ChangesetID) (p : PatchsetID) (x : Subject) : Prop :=
  ∃ before now, before ++ [.store (.approve now id x)] <+: as ∧
    ∃ c, (after srv root before).store.changesets.get id = some c ∧ c.currentPatchset = some p

/-- `submitExtras` counted the check as skipped for the patchset. -/
def CountedSkipped (id : ChangesetID) (p : PatchsetID) (check : String) : Prop :=
  ∃ cs extra, ExtrasFor srv root as id cs extra ∧ cs.row.currentPatchset = some p ∧
    ∃ e ∈ extra, trimSpace e.1 = check

/-- At least `n` distinct subjects other than the two authors approved the patchset while it was
current. -/
def Approved (n : Nat) (id : ChangesetID) (c : Changeset) (p : PatchsetID) (ps : Patchset) : Prop :=
  ∃ l : List Subject, l.Nodup ∧ n ≤ l.length ∧
    ∀ x ∈ l, x ≠ c.author ∧ x ≠ ps.author ∧ ApprovedWhileCurrent srv root as id p x

/-- A required check has passed, or has no result and was counted as skipped. -/
def CheckCleared (id : ChangesetID) (p : PatchsetID) (check : String) : Prop :=
  (after srv root as).store.checkResults.get (id, p, check) = some "pass" ∨
    (after srv root as).store.checkResults.get (id, p, check) = none ∧
      CountedSkipped srv root as id p check

/-- The patchset of the changeset is **reviewed** by the definition its slice has now. -/
def Reviewed (id : ChangesetID) (p : PatchsetID) : Prop :=
  ∃ c ps slice, (after srv root as).store.changesets.get id = some c ∧
    (after srv root as).store.patchsets.get p = some ps ∧
    (after srv root as).store.slices.get c.slice = some slice ∧
    Approved srv root as slice.requiredApprovals id c p ps ∧
    (∀ check, checkRequired slice check → CheckCleared srv root as id p check) ∧
    ps.conflicts = [] ∧ ∀ q ∈ ps.changedPaths, inAnyPrefix slice.includedPaths q = true

/-- Every patchset a call has admitted was reviewed when it was admitted. -/
def ReviewGate : Prop :=
  ∀ before k now fresh, before ++ [.advance k now fresh] <+: as →
    ∀ req a, ((after srv root before).calls k).submission = some req →
      admission (after srv root before).store req = .ok a →
      Reviewed srv root before req.changeset a.patchset

end History

/-! ## The condition -/

/-- The checks.yaml files or the triggers can skip the check for the patchset, by some definition of
the slice and some tree of the target ref. -/
def Server.MaySkip (srv : Server) (ps : Patchset) (name : String) : Prop :=
  (∃ slice l, srv.planSkipped slice ps = .ok l ∧ name ∈ l) ∨
    ∃ tree account, srv.triggerSkipped tree account name ps = .ok true

/-- Who approves did not upload the patchset, unless they are the changeset's author, who does not
count. -/
def ApprovesOthers (s : State) (id : ChangesetID) (subject : Subject) : Prop :=
  ∀ c ∈ s.changesets.get id, ∀ p ∈ c.currentPatchset, ∀ ps ∈ s.patchsets.get p,
    trimSpace subject ≠ trimSpace ps.author ∨ trimSpace subject = trimSpace c.author

instance (s : State) (id : ChangesetID) (subject : Subject) :
    Decidable (ApprovesOthers s id subject) := by
  unfold ApprovesOthers
  infer_instance

/-- What a step must keep to for the review gate. -/
def Vetted (srv : Server) (s : Service) : ServiceAction → Prop
  | .store (.approve _ id subject) => ApprovesOthers s.store id subject
  | .store (.reportCheckResult _ id _ check status) =>
    normalizeCheckStatus status = some "fail" →
      ∀ c ∈ s.store.changesets.get id, ∀ p ∈ c.currentPatchset, ∀ ps ∈ s.store.patchsets.get p,
        ∀ name, trimSpace name = trimSpace check → ¬ srv.MaySkip ps name
  | .checkRunStatus _ _ p name status =>
    status.result = some "fail" → ∀ ps ∈ s.store.patchsets.get p,
      ∀ name', trimSpace name' = name → ¬ srv.MaySkip ps name'
  | .advance k _ _ => (s.calls k).Pinned s.store
  | _ => True

theorem vetted_advance {srv : Server} {s : Service} {k : CallID} {now : Time} {fresh : PatchsetID} :
    Vetted srv s (.advance k now fresh) ↔ (s.calls k).Pinned s.store := Iff.rfl

/-! ## What stays true along a history -/

section Invariant

variable {srv : Server} {root : Node} {as as' : List ServiceAction} {s s' : Service}
  {id : ChangesetID} {p : PatchsetID}

theorem ApprovedWhileCurrent.mono {x : Subject} (h : ApprovedWhileCurrent srv root as id p x)
    (hp : as <+: as') : ApprovedWhileCurrent srv root as' id p x := by
  obtain ⟨before, now, hbefore, hc⟩ := h
  exact ⟨before, now, hbefore.trans hp, hc⟩

/-- An approval on record was made while its patchset was current, and not by who uploaded it. -/
def ApprovalSound (srv : Server) (root : Node) (as : List ServiceAction) (s : State)
    (a : Approval) :
    Prop :=
  ∃ x ps c, trimSpace x = a.subject ∧ ApprovedWhileCurrent srv root as a.changeset a.patchset x ∧
    s.patchsets.get a.patchset = some ps ∧ s.core a.changeset = some c ∧
    (trimSpace x ≠ trimSpace ps.author ∨ trimSpace x = trimSpace c.author)

/-- A result on record is a pass, or a failure of a check that is not skipped. -/
def ResultSound (srv : Server) (s : State) (key : ChangesetID × PatchsetID × String) (st : String) :
    Prop :=
  st = "pass" ∨ st = "fail" ∧ ∃ ps, s.patchsets.get key.2.1 = some ps ∧
    ∀ name, trimSpace name = key.2.2 → ¬ srv.MaySkip ps name

variable {a : ServiceAction}

theorem ApprovalSound.serve {x : Approval} (hm : Serving srv s a s')
    (h : ApprovalSound srv root as s.store x)
    (hp : as <+: as') : ApprovalSound srv root as' s'.store x := by
  obtain ⟨y, ps, c, hy, happroved, hps, hc, hother⟩ := h
  obtain ⟨c', hc', hauthor, -⟩ := hm.author hc
  exact ⟨y, ps, c', hy, happroved.mono hp, hm.extends _ _ hps, hc', by rwa [hauthor]⟩

theorem ResultSound.serve {key : ChangesetID × PatchsetID × String} {st : String}
    (hm : Serving srv s a s') (h : ResultSound srv s.store key st) :
    ResultSound srv s'.store key st := by
  rcases h with h | ⟨hfail, ps, hps, hskip⟩
  · exact .inl h
  · exact .inr ⟨hfail, ps, hm.extends _ _ hps, hskip⟩

/-- The invariant of a history whose steps are vetted. -/
structure ReviewSound (srv : Server) (root : Node) (as : List ServiceAction) : Prop where
  approvals : ∀ x ∈ (after srv root as).store.approvals,
    ApprovalSound srv root as (after srv root as).store x
  results : ∀ key st, (after srv root as).store.checkResults.get key = some st →
    ResultSound srv (after srv root as).store key st
  runs : ∀ r ∈ (after srv root as).checkRuns, ∃ ps, (after srv root as).store.patchsets.get r.2.1 = some ps

/-- At the start there is nothing on record. -/
theorem reviewSound_nil (srv : Server) (root : Node) : ReviewSound srv root [] where
  runs := by simp [after, Service.start]
  approvals := by simp [after, Service.start, State.start]
  results := by simp [after, Service.start, State.start]

/-- **A vetted step keeps the invariant.** -/
theorem ReviewSound.step (h : ReviewSound srv root as) (ha : Vetted srv (after srv root as) a) :
    ReviewSound srv root (as ++ [a]) := by
  have hm := serve_serving srv (after srv root as) a
  have hp : as <+: as ++ [a] := prefix_append as [a]
  have hcores := (callsSound srv root as).cores
  refine ⟨?_, ?_, ?_⟩
  · rw [after_append_singleton]
    intro x hx
    rcases hm.approval hx with hx | ⟨now, subject, c, rfl, hc, hcurrent, hsubject⟩
    · exact (h.approvals x hx).serve hm hp
    · -- the approval is made by this step
      obtain ⟨row, hrow, rfl⟩ := State.core_some hc
      obtain ⟨ps, hps, -⟩ := hcores.current x.changeset row.core x.patchset hc hcurrent
      obtain ⟨c', hc', hauthor, -⟩ := hm.author hc
      refine ⟨subject, ps, c', hsubject.symm, ⟨as, now, prefix_refl _, row, hrow, hcurrent⟩,
        hm.extends _ _ hps, hc', ?_⟩
      rw [hauthor]
      exact ha row hrow x.patchset hcurrent ps hps
  · rw [after_append_singleton]
    intro key st hst
    rcases hm.checkResult hst with hst | ⟨now, subject, check, status, c, rfl, hc, hcurrent, hcheck,
      hstatus⟩ | ⟨now, status, rfl, hrun, hresult⟩
    · exact (h.results key st hst).serve hm
    · -- the result is recorded by this step
      rcases normalizeCheckStatus_some hstatus with rfl | rfl
      · exact .inl rfl
      · obtain ⟨row, hrow, rfl⟩ := State.core_some hc
        obtain ⟨ps, hps, -⟩ := hcores.current key.1 row.core key.2.1 hc hcurrent
        refine .inr ⟨rfl, ps, hm.extends _ _ hps, fun name hname => ?_⟩
        exact ha hstatus row hrow key.2.1 hcurrent ps hps name (hname.trans hcheck.symm)
    · -- the result is that of a check run
      rcases RunStatus.result_some hresult with rfl | rfl
      · exact .inl rfl
      · obtain ⟨ps, hps⟩ := h.runs key hrun
        exact .inr ⟨rfl, ps, hm.extends _ _ hps, ha hresult ps hps⟩
  · rw [after_append_singleton]
    intro r hr
    rcases hm.mem_checkRuns hr with hr | hr
    · obtain ⟨ps, hps⟩ := h.runs r hr
      exact ⟨ps, hm.extends _ _ hps⟩
    · obtain ⟨ps, hps, -⟩ := (Option.any_eq_true _ _).mp hr
      exact ⟨ps, hm.extends _ _ hps⟩

/-! ## What an admission has made sure of -/

variable {cs : ChangesetView}

/-- The results `submitExtras` gives are of checks that are skipped for the current patchset. -/
theorem mem_submitExtras {st : State} {runs : List CheckRun} {extra : List (String × String)}
    (h : submitExtras srv st runs cs = .ok extra) {e : String × String} (he : e ∈ extra) :
    ∃ r, cs.currentPatchset = some r ∧ srv.MaySkip r.2 e.1 := by
  obtain ⟨⟨⟩, -, h⟩ := bind_eq_ok.mp h
  obtain ⟨skipped, hskipped, h⟩ := bind_eq_ok.mp h
  obtain ⟨triggers, htriggers, h⟩ := bind_eq_ok.mp h
  cases h
  obtain ⟨name, hname, rfl⟩ := mem_map.mp he
  rcases mem_append.mp hname with hname | hname
  · -- skipped by the checks.yaml files
    unfold skippedRequiredChecks at hskipped
    split at hskipped
    · cases hskipped
      cases hname
    · rename_i id ps hcurrent
      split at hskipped
      · cases hskipped
      · rename_i slice hslice
        split_ifs at hskipped
        · cases hskipped
          cases hname
        · obtain ⟨l, hl, hfilter⟩ := bind_eq_ok.mp hskipped
          cases hfilter
          exact ⟨(id, ps), hcurrent, .inl ⟨slice, l, hl, (mem_filter.mp hname).1⟩⟩
  · -- reported only by triggers that do not run
    have hname := (mem_filter.mp hname).1
    unfold skippedTriggerChecks at htriggers
    split at htriggers
    · cases htriggers
      cases hname
    · rename_i id ps hcurrent
      split at htriggers
      · cases htriggers
      · split_ifs at htriggers
        · cases htriggers
          cases hname
        · split at htriggers
          · cases htriggers
          · rename_i tree htree
            exact ⟨(id, ps), hcurrent, .inr ⟨tree, _, of_mem_filterM htriggers hname⟩⟩

theorem ReviewSound.approved (h : ReviewSound srv root as) {c : Changeset} {ps : Patchset}
    (hc : (after srv root as).store.changesets.get id = some c)
    (hps : (after srv root as).store.patchsets.get p = some ps) {n : Nat}
    (hn : n ≤ (nonAuthorApprovers c.author
      (approvalSubjects (after srv root as).store id p)).length) : Approved srv root as n id c p ps := by
  have hcallers : ∀ y ∈ nonAuthorApprovers c.author (approvalSubjects (after srv root as).store id p),
      ∃ x, trimSpace x = y ∧
        (x ≠ c.author ∧ x ≠ ps.author ∧ ApprovedWhileCurrent srv root as id p x) := by
    intro y hy
    obtain ⟨hmem, -, hauthor⟩ := mem_nonAuthorApprovers.mp hy
    obtain ⟨subject, hsubject, rfl⟩ := mem_map.mp hmem
    obtain ⟨r, hfiltered, rfl⟩ := mem_map.mp hsubject
    obtain ⟨hr, hkey⟩ := mem_filter.mp hfiltered
    obtain ⟨rfl, rfl⟩ := of_decide_eq_true hkey
    obtain ⟨x, ps', c', hx, happroved, hps', hc', hother⟩ := h.approvals r hr
    rw [hps] at hps'
    rw [State.core_eq_some hc] at hc'
    cases hps'
    cases hc'
    rw [← hx, trimSpace_trimSpace] at hauthor ⊢
    refine ⟨x, rfl, ?_, ?_, happroved⟩
    · rintro rfl
      exact hauthor rfl
    · rintro rfl
      exact hother.elim (fun hne => hne rfl) hauthor
  obtain ⟨l, hnodup, hlength, hl⟩ := exists_nodup_preimages (nodup_nonAuthorApprovers _ _) hcallers
  exact ⟨l, hnodup, hlength ▸ hn, hl⟩

theorem ReviewSound.cleared (h : ReviewSound srv root as)
    {extra : List (String × String)} (hextras : ExtrasFor srv root as id cs extra)
    (hview : Viewed (after srv root as).store cs) (hcurrent : cs.row.currentPatchset = some p)
    {check : String} (hpass : checkPasses (mergeCheckStatuses
      (checkStatuses (after srv root as).store id p) extra) check) :
    CheckCleared srv root as id p check := by
  obtain ⟨status, hstatus, hlower⟩ := checkPasses_some hpass
  rcases mergeCheckStatuses_eq_some hstatus with hstored | ⟨e, he, hname⟩
  · -- the recorded result counts
    rcases h.results (id, p, check) status hstored with rfl | ⟨rfl, -⟩
    · exact .inl hstored
    · exact absurd hlower (by decide)
  · cases hstored : (after srv root as).store.checkResults.get (id, p, check) with
    | none => exact .inr ⟨hstored, cs, extra, hextras, hcurrent, e, he, hname⟩
    | some st =>
      rcases h.results (id, p, check) st hstored with rfl | ⟨-, ps, hps, hskip⟩
      · exact .inl hstored
      · -- a failure is never of a check that can be skipped
        obtain ⟨before, -, -, hx⟩ := hextras
        obtain ⟨r, hr, hmay⟩ := mem_submitExtras hx he
        obtain ⟨ps', hps', hmem, -⟩ := hview.current p hcurrent
        rw [hr] at hps'
        cases hps'
        have hrow := hview.patchsets _ hmem
        rw [hps] at hrow
        cases hrow
        exact absurd hmay (hskip e.1 hname)

end Invariant

/-- A server whose checks.yaml has a check `lint` for other files. -/
def lintServer : Server where
  isAdmin := fun x _ => x == "root"
  planSkipped := fun _ _ => .ok ["lint"]
  triggerSkipped := fun _ _ _ _ => .ok false
  rebase := fun _ _ ps _ => .ok ⟨ps.fileEdits, [], []⟩

/-- A slice that requires an approval and two checks. -/
def reviewedSlice : Slice := ⟨"acme", [["acme"]], 1, ["lint", "test"], false⟩

/-- A patchset that writes one file of an empty repository. -/
def oneEdit (author : Subject) : PatchsetUpload where
  author := author
  kind := ""
  base := .commit (.initial .nil)
  fileEdits := [.upsert ["acme", "site", "a.txt"] ⟨"blob_1", "", 0⟩]
  conflicts := []
  includedPaths := [["acme"]]
  readablePaths := []

/-- A changeset of `ann` with a patchset by `author`, approved by `bob` and tested. -/
def inReview (author : Subject) : List ServiceAction :=
  [.store (.setSlice "site" reviewedSlice), .store (.putBlob "blob_1" ⟨"hash_1", 3⟩),
    .store (.create 1 "cs_1" "ann" ⟨"site", "one", "", none, none, none⟩),
    .store (.addPatchset 2 "cs_1" none "ps_1" (oneEdit author)),
    .store (.approve 3 "cs_1" "bob"), .store (.reportCheckResult 4 "cs_1" "ci" "test" "pass")]

/-- `bob` approves the patchset they uploaded. -/
def ownApproval : List ServiceAction :=
  inReview "bob" ++ [.call 0 ⟨"ann", "cs_1", none, false⟩, .advance 0 6 ""]

/-- The check that is skipped fails. -/
def skippedFailure : List ServiceAction :=
  inReview "ann" ++ [.store (.reportCheckResult 5 "cs_1" "ci" "lint" "fail"),
    .call 0 ⟨"ann", "cs_1", none, false⟩, .advance 0 6 ""]

/-- What the review gate says of the call that is about to admit the patchset. -/
theorem ReviewGate.reviewed {before : List ServiceAction}
    (h : ReviewGate lintServer .nil (before ++ [.advance 0 7 ""])) (req : SubmitRequest)
    (hreq : ((after lintServer .nil before).calls 0).submission = some req)
    (hadmits : (admission (after lintServer .nil before).store req).toOption.map Admission.patchset =
      some "ps_1")
    (hslices : ((after lintServer .nil before).store.changesets.get req.changeset).bind
      (fun c => (after lintServer .nil before).store.slices.get c.slice) = some reviewedSlice) :
    ∃ c ps, (after lintServer .nil before).store.patchsets.get "ps_1" = some ps ∧
      Approved lintServer .nil before 1 req.changeset c "ps_1" ps ∧
      ∀ check, checkRequired reviewedSlice check →
        CheckCleared lintServer .nil before req.changeset "ps_1" check := by
  obtain ⟨a, ha, hp⟩ := Option.map_eq_some_iff.mp hadmits
  obtain ⟨c, ps, slice, hc, hps, hslice, happroved, hchecks, -⟩ :=
    h before 0 7 "" (prefix_refl _) req a hreq (toOption_eq_some.mp ha)
  rw [hc, Option.bind_some, hslice] at hslices
  cases hslices
  rw [hp] at hps happroved hchecks
  exact ⟨c, ps, hps, happroved, hchecks⟩

/-- A patchset of `ann`, approved by `bob`; `test` passed, also in a check run, and `lint` is
skipped. -/
def reviewedHistory : List ServiceAction :=
  inReview "ann" ++ [.checkRun "cs_1" "ps_1" "test", .checkRunStatus 5 "cs_1" "ps_1" "test" .passed,
    .call 0 ⟨"ann", "cs_1", some "ps_1", false⟩, .advance 0 6 "", .advance 0 7 ""]

end GitSlice
