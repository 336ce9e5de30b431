import GitSlice.Store.State

/-! # Submit requirements
The functions of `internal/storage` that decide whether a patchset meets the requirements of its
slice (`submit_requirements.go`), and the texts they share with the store: the reasons a submit is
blocked with, and the message of the commit a changeset lands as (`changeset_text.go`).

`evaluateSubmitRequirements_eq_empty` says when a patchset passes. -/

namespace GitSlice

/-! ## Texts -/

/-- `unicode.ToLower`, as far as the result is an ASCII letter. -/
def lowerChar (c : Char) : Char :=
  if 'A' ≤ c ∧ c ≤ 'Z' then Char.ofNat (c.toNat + 32)
  else if c.toNat = 0x130 then 'i'
  else if c.toNat = 0x212a then 'k'
  else c

/-- `strings.ToLower`, for comparing with an ASCII word. -/
def toLower (s : String) : String := String.ofList (s.toList.map lowerChar)

/-- A character as `%q` prints it, for characters that Go can print. -/
def quoteChar (c : Char) : List Char :=
  if c = '"' ∨ c = '\\' then ['\\', c]
  else if c = '\n' then ['\\', 'n']
  else if c = '\r' then ['\\', 'r']
  else if c = '\t' then ['\\', 't']
  else [c]

/-- A text as `%q` prints it. -/
def quote (s : String) : String := String.ofList ('"' :: s.toList.flatMap quoteChar ++ ['"'])

/-- `StaleBaseReason`. -/
def staleBaseReason : String := "path base conflict, refresh or rebase the changeset"

/-- `SubmitMergeKind`. -/
def submitMergeKind : String := "submit_merge"

/-- Two texts with a blank line between them. -/
def joinParagraphs (first second : String) : String :=
  if first = "" then second
  else if second = "" then first
  else first ++ "\n\n" ++ second

/-- `CommitMessage`. -/
def commitMessage (title description : String) : String :=
  joinParagraphs (trimSpace title) (trimSpace description)

/-- The id as texts show it. -/
def shortChangesetID (id : ChangesetID) : String :=
  let chars := id.toList
  let body := if "cs_".toList.isPrefixOf chars then chars.drop 3 else chars
  String.ofList (body.take 10)

/-- `strings.HasPrefix`. -/
def textHasPrefix (s start : String) : Bool := start.toList.isPrefixOf s.toList

/-- The reason is about a requirement. -/
def isRequirementBlock (reason : String) : Bool :=
  textHasPrefix reason "required check " || textHasPrefix reason "required approvals "

/-! ## Checks and approvals -/

/-- The results of checks, by name. -/
abbrev CheckStatuses := String → Option String

/-- `NormalizeCheckStatus`. -/
def normalizeCheckStatus (status : String) : Option String :=
  let status := toLower (trimSpace status)
  if status = "pass" ∨ status = "fail" then some status else none

/-- The statuses of a check run. -/
inductive RunStatus
  | queued
  | running
  | passed
  | failed
  | errored
  | skipped
  | canceled
deriving DecidableEq

/-- `isTerminalCheckRunStatus`. -/
def RunStatus.isTerminal : RunStatus → Bool
  | .queued | .running => false
  | .passed | .failed | .errored | .skipped | .canceled => true

/-- `terminalCheckResultStatus`: the check result a status records. -/
def RunStatus.result : RunStatus → Option String
  | .passed => normalizeCheckStatus "pass"
  | .failed | .errored => normalizeCheckStatus "fail"
  | .queued | .running | .skipped | .canceled => none

/-- `mergeCheckStatuses`: the extra results stand before the stored ones. -/
def mergeCheckStatuses (statuses : CheckStatuses) (extra : List (String × String)) :
    CheckStatuses :=
  extra.foldl
    (fun statuses e =>
      match normalizeCheckStatus e.2 with
      | none => statuses
      | some status =>
        if trimSpace e.1 = "" then statuses
        else fun name => if name = trimSpace e.1 then some status else statuses name)
    statuses

/-- The subjects `DistinctNonAuthorApprovalCount` counts. -/
def nonAuthorApprovers (author : Subject) (subjects : List Subject) : List Subject :=
  ((subjects.map trimSpace).filter fun x => x ≠ "" ∧ x ≠ trimSpace author).dedup

/-- How many approvals count. -/
def distinctNonAuthorApprovalCount (author : Subject) (subjects : List Subject) : Nat :=
  (nonAuthorApprovers author subjects).length

/-- The reason one required check gives, empty when it passes or has no name. -/
def requiredCheckReason (statuses : CheckStatuses) (check : String) : String :=
  let check := trimSpace check
  if check = "" then ""
  else
    let status := toLower (trimSpace ((statuses check).getD ""))
    if status = "pass" then ""
    else if status = "" then "required check " ++ quote check ++ " has no result for current patchset"
    else if status = "fail" then "required check " ++ quote check ++ " is failing for current patchset"
    else "required check " ++ quote check ++ " is not passing for current patchset"

/-- The loop over the required checks: the first reason. -/
def requiredChecksReason (statuses : CheckStatuses) : List String → String
  | [] => ""
  | check :: rest =>
    if requiredCheckReason statuses check = "" then requiredChecksReason statuses rest
    else requiredCheckReason statuses check

/-- `EvaluateSubmitRequirements`: the reason a patchset does not pass, or the empty text. -/
def evaluateSubmitRequirements (slice : Slice) (author : Subject) (approvals : List Subject)
    (statuses : CheckStatuses) : String :=
  let count := distinctNonAuthorApprovalCount author approvals
  if count < slice.requiredApprovals then
    "required approvals not satisfied: requires " ++ toString slice.requiredApprovals ++
      " distinct non-author approval(s), has " ++ toString count
  else requiredChecksReason statuses slice.requiredChecks

/-! ## What passing means -/

/-- A check without a name is not required. -/
def checkRequired (slice : Slice) (check : String) : Prop :=
  check ≠ "" ∧ check ∈ slice.requiredChecks.map trimSpace

/-- A check counts as passed. -/
def checkPasses (statuses : CheckStatuses) (check : String) : Prop :=
  toLower (trimSpace ((statuses check).getD "")) = "pass"

variable {statuses : CheckStatuses} {check : String}

theorem requiredCheckReason_eq_empty (h : requiredCheckReason statuses check = "")
    (hname : trimSpace check ≠ "") : checkPasses statuses (trimSpace check) := by
  simp only [requiredCheckReason, if_neg hname] at h
  by_contra hpass
  rw [checkPasses] at hpass
  rw [if_neg hpass] at h
  -- every other reason is a text that is not empty
  split at h
  · simp at h
  · split at h
    · simp at h
    · simp at h

theorem requiredChecksReason_eq_empty {checks : List String}
    (h : requiredChecksReason statuses checks = "") :
    ∀ check ∈ checks.map trimSpace, check ≠ "" → checkPasses statuses check := by
  induction checks with
  | nil => simp
  | cons check rest ih =>
    rw [requiredChecksReason] at h
    split at h
    · rename_i hcheck
      intro c hc hne
      rcases List.mem_cons.mp hc with rfl | hc
      · exact requiredCheckReason_eq_empty hcheck hne
      · exact ih h c hc hne
    · rename_i hcheck
      exact absurd h hcheck

variable {author : Subject}

theorem evaluateSubmitRequirements_eq_empty {slice : Slice} {approvals : List Subject}
    (h : evaluateSubmitRequirements slice author approvals statuses = "") :
    slice.requiredApprovals ≤ (nonAuthorApprovers author approvals).length ∧
      ∀ check, checkRequired slice check → checkPasses statuses check := by
  rw [evaluateSubmitRequirements] at h
  split at h
  · simp at h
  · rename_i hcount
    exact ⟨Nat.le_of_not_lt hcount, fun check hc => requiredChecksReason_eq_empty h check hc.2 hc.1⟩

theorem mem_nonAuthorApprovers {subjects : List Subject} {x : Subject} :
    x ∈ nonAuthorApprovers author subjects ↔
      x ∈ subjects.map trimSpace ∧ x ≠ "" ∧ x ≠ trimSpace author := by
  simp [nonAuthorApprovers]

theorem nodup_nonAuthorApprovers (author : Subject) (subjects : List Subject) :
    (nonAuthorApprovers author subjects).Nodup :=
  List.nodup_dedup _

theorem mergeCheckStatuses_eq_some {extra : List (String × String)} {status : String}
    (h : mergeCheckStatuses statuses extra check = some status) :
    statuses check = some status ∨ ∃ e ∈ extra, trimSpace e.1 = check := by
  unfold mergeCheckStatuses at h
  induction extra generalizing statuses with
  | nil => exact .inl h
  | cons e rest ih =>
    rw [List.foldl_cons] at h
    rcases ih h with h | ⟨e', he', hname⟩
    · by_cases hname : trimSpace e.1 = check
      · exact .inr ⟨e, List.mem_cons_self, hname⟩
      · refine .inl ?_
        cases hstatus : normalizeCheckStatus e.2 with
        | none => simpa only [hstatus] using h
        | some st =>
          simp only [hstatus] at h
          split_ifs at h with hblank
          · exact h
          · dsimp only at h
            rwa [if_neg (Ne.symm hname)] at h
    · exact .inr ⟨e', List.mem_cons_of_mem _ he', hname⟩

theorem normalizeCheckStatus_some {status st : String} (h : normalizeCheckStatus status = some st) :
    st = "pass" ∨ st = "fail" := by
  unfold normalizeCheckStatus at h
  dsimp only at h
  split_ifs at h with hstatus
  rw [← Option.some.inj h]
  exact hstatus

/-- A check run records a pass or a failure. -/
theorem RunStatus.result_some {status : RunStatus} {st : String} (h : status.result = some st) :
    st = "pass" ∨ st = "fail" := by
  rw [RunStatus.result.eq_def] at h
  cases status with
  | passed | failed | errored => exact normalizeCheckStatus_some h
  | queued | running | skipped | canceled => cases h

theorem checkPasses_some (h : checkPasses statuses check) :
    ∃ status, statuses check = some status ∧ toLower (trimSpace status) = "pass" := by
  unfold checkPasses at h
  cases hs : statuses check with
  | none =>
    rw [hs] at h
    exact absurd h (by decide)
  | some status =>
    rw [hs] at h
    exact ⟨status, rfl, h⟩

end GitSlice
