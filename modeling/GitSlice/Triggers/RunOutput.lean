import GitSlice.Checks.Runs
import GitSlice.PathText
import GitSlice.SecretMask

/-! # What a trigger run writes
`service/trigger_run.go`: the calls by which the script of a trigger run stores text that readers
see. `AppendRunLog` truncates each line and masks it, `FinishRun` masks the error and truncates it,
and closes the checks that are open with a reason that quotes the error; `CreateCheck` and
`UpdateCheck` store a summary, a link and annotations.

`texts_silent` says when no secret of the run shows in any of them. The texts of checks are stored
as they are sent, and the error too when the secrets cannot be read. -/

namespace GitSlice

open List

namespace RunOutput

/-! ## Texts -/

/-- `…`. -/
def ellipsis : Char := '…'

/-- The characters that fit into some bytes. -/
def takeBytes : Nat → List Char → List Char
  | _, [] => []
  | n, c :: cs => if c.utf8Size ≤ n then c :: takeBytes (n - c.utf8Size) cs else []

/-- `truncate`: what is longer than some bytes is cut where a character starts. -/
def truncate (s : String) (n : Nat) : String :=
  if s.utf8ByteSize ≤ n then s else String.ofList (takeBytes n s.toList ++ [ellipsis])

/-- Bytes. -/
def maxTriggerLogLine : Nat := 4096

/-- In one request. -/
def maxTriggerLogLines : Nat := 200

/-- Bytes. -/
def maxTriggerSummary : Nat := 65536

/-- Of one check. -/
def maxCheckAnnotations : Nat := 200

/-- `strings.HasPrefix(s, start)`. -/
def hasStart (s start : String) : Bool := start.toList.isPrefixOf s.toList

/-! ## A run -/

/-- The statuses of a trigger run. -/
inductive Status
  | queued
  | running
  | waiting
  | succeeded
  | failed
  | errored
  | canceled
  | timedOut
deriving DecidableEq

/-- `TriggerRunFinal`. -/
def Status.isFinal : Status → Bool
  | .queued | .running | .waiting => false
  | .succeeded | .failed | .errored | .canceled | .timedOut => true

/-- The text of a status. -/
def Status.text : Status → String
  | .queued => "queued"
  | .running => "running"
  | .waiting => "waiting"
  | .succeeded => "succeeded"
  | .failed => "failed"
  | .errored => "errored"
  | .canceled => "canceled"
  | .timedOut => "timed_out"

/-- The level of an annotation. -/
inductive Level
  | notice
  | warning
  | failure
deriving DecidableEq

/-- `CheckAnnotation`, as it is stored. -/
structure AnnotationRow where
  path : String
  startLine : Int
  endLine : Int
  level : Level
  message : String
deriving DecidableEq

/-- A check run that a trigger run reported. -/
structure Check where
  /-- `check_name`, without the trigger's id. -/
  name : String
  /-- It has a `superseded_by_run_id`: a newer run of the check replaced it. -/
  superseded : Bool
  status : RunStatus
  /-- `details_url`. -/
  url : String
  summary : String
  annotations : List AnnotationRow
deriving DecidableEq

/-- What of a run does not change. -/
structure Run where
  folder : Path
  /-- `ChangesetID`. -/
  changeset : String
  /-- `PatchsetID`. -/
  patchset : String
  /-- The checks the trigger lists. -/
  checks : List String
  /-- The values of the secrets the run was given when it started. -/
  given : List String

/-- The rows of a run. A check is known by its place in the list. -/
structure State where
  status : Status
  error : String
  /-- The chunks of `trigger_run_logs`, with their streams. -/
  logs : List (String × String)
  /-- The check runs with this run's `trigger_run_id`. -/
  checks : List Check
deriving DecidableEq

/-- The store calls of a request. -/
inductive StoreCall
  /-- `GetTriggerRun`. -/
  | getRun
  /-- `AppendTriggerRunLog`, of the chunk that would be at this place. -/
  | appendLog (chunk : Nat)
  /-- `CreateCheckRun`. -/
  | createCheck
  /-- `GetCheckRun`. -/
  | getCheck
  /-- `SetCheckRunDetails`. -/
  | setDetails
  /-- `UpdateCheckRunStatus`, by `applyCheck`. -/
  | setStatus
  /-- `ListCheckRuns`, by `OpenChecks`. -/
  | listOpen
  /-- `ListCheckRuns`, by `ChecksOutcome`. -/
  | listOutcome
  /-- `UpdateTriggerRun`. -/
  | updateRun
  /-- `ListCheckRuns`, by `CloseChecks`. -/
  | listClosing
  /-- `UpdateCheckRunStatus`, by `CloseChecks`. -/
  | close (check : Nat)
deriving DecidableEq

/-- What a request meets. -/
structure Env where
  /-- `SecretsFor`: the values now of the secrets the trigger names, unless they cannot be read. -/
  secrets : Option (List String)
  /-- The store calls that fail. Conflicts with requests of others are among them. -/
  fails : StoreCall → Bool

/-- The environment in which every call succeeds. -/
def Env.sound (values : List String) : Env := ⟨some values, fun _ => false⟩

/-! ## The log -/

/-- The line of a log as it is written. -/
def maskedLine (values : List String) (text : String) : String :=
  (SecretMask.new values).mask (truncate text maxTriggerLogLine)

/-- The stream of a line. -/
def lineStream (stream : String) : String := if stream = "stderr" then "stderr" else "stdout"

/-- `flush`: the chunks after it, or before it if it fails. -/
def flush (env : Env) (logs : List (String × String)) (stream chunk : String) :
    Except (List (String × String)) (List (String × String)) :=
  if chunk = "" then .ok logs
  else if env.fails (.appendLog logs.length) then .error logs
  else .ok (logs ++ [(stream, chunk)])

/-- The loop of `AppendRunLog` over the lines: `chunk` is what is not written yet. -/
def appendLines (env : Env) (values : List String) (logs : List (String × String))
    (stream chunk : String) :
    List (String × String) → Except (List (String × String)) (List (String × String))
  | [] => flush env logs stream chunk
  | line :: lines =>
    if lineStream line.1 ≠ stream then do
      let logs ← flush env logs stream chunk
      appendLines env values logs (lineStream line.1) (maskedLine values line.2 ++ "\n") lines
    else appendLines env values logs stream (chunk ++ maskedLine values line.2 ++ "\n") lines

/-- The lines, cut to length and masked. -/
def appendRunLog (env : Env) (st : State) (lines : List (String × String)) : State :=
  if maxTriggerLogLines < lines.length then st
  else
    match env.secrets with
    | none => st
    | some values =>
      match appendLines env values st.logs "stdout" "" lines with
      | .ok logs => { st with logs := logs }
      | .error logs => { st with logs := logs }

/-! ## Checks -/

/-- A status of a check that is not final. -/
def Check.isOpen (c : Check) : Bool := c.status = .queued ∨ c.status = .running

/-- `ListCheckRuns`, of which the callers look at the checks of the run: those that were not
replaced. -/
def State.listed (st : State) : List Check := st.checks.filter fun c => !c.superseded

/-- `OpenChecks` finds none when they cannot be listed. -/
def hasOpenChecks (run : Run) (env : Env) (st : State) : Bool :=
  run.changeset ≠ "" && !env.fails .listOpen && st.listed.any Check.isOpen

/-- `ChecksOutcome`: a run without a failed or errored check has succeeded, and one whose checks
cannot be listed. -/
def checksOutcome (run : Run) (env : Env) (st : State) : Status :=
  if run.changeset ≠ "" && !env.fails .listOutcome &&
      st.listed.any fun c => c.status = .failed ∨ c.status = .errored then .failed
  else .succeeded

/-- `CloseChecks` with the status `errored`. -/
def closeChecks (run : Run) (env : Env) (st : State) (summary : String) : State :=
  if run.changeset = "" ∨ env.fails .listClosing then st
  else { st with
    checks := st.checks.mapIdx fun i c =>
      if c.isOpen ∧ c.superseded = false ∧ env.fails (.close i) = false then
        { c with status := .errored, summary := trimSpace summary }
      else c }

/-- A waiting run ends with its last check. -/
def finishIfDone (run : Run) (env : Env) (st : State) : State :=
  if st.status = .waiting ∧ hasOpenChecks run env st = false ∧ env.fails .updateRun = false then
    { st with status := checksOutcome run env st }
  else st

/-- `triggerCheckStatuses`. -/
def parseCheckStatus : String → Option RunStatus
  | "queued" => some .queued
  | "running" => some .running
  | "passed" => some .passed
  | "failed" => some .failed
  | "errored" => some .errored
  | "canceled" => some .canceled
  | "skipped" => some .skipped
  | _ => none

/-- `CheckAnnotation`, as it is sent. -/
structure AnnotationInput where
  path : String
  /-- `start_line`. -/
  startLine : Int
  /-- `end_line`. -/
  endLine : Int
  level : String
  message : String
deriving DecidableEq

/-- The path of an annotation: below the run's folder unless it is absolute, and cleaned. -/
def annotationPath (folder : Path) (path : String) : String :=
  let p := trimSpace path
  if p = "" then "."
  else if hasStart p "/" then renderPath (cleanRooted p)
  else renderPath (cleanRooted (renderPath folder ++ "/" ++ p))

/-- An annotation as `applyCheck` stores it. -/
def AnnotationInput.stored (folder : Path) (a : AnnotationInput) : AnnotationRow where
  path := annotationPath folder a.path
  startLine := a.startLine
  endLine := a.endLine
  level := if a.level = "notice" then .notice else if a.level = "warning" then .warning else .failure
  message := truncate a.message 2000

/-- The link is empty or one to a web page. -/
def validUrl (url : String) : Bool := url = "" || hasStart url "https://" || hasStart url "http://"

/-- The details of a check after `applyCheck` set those that are given. -/
def Check.withDetails (c : Check) (run : Run) (summary url : Option String)
    (annotations : Option (List AnnotationInput)) : Check where
  name := c.name
  superseded := c.superseded
  status := c.status
  url := (url.map trimSpace).getD c.url
  summary := (summary.map fun s => truncate s maxTriggerSummary).getD c.summary
  annotations := (annotations.map fun as =>
    (as.map (AnnotationInput.stored run.folder)).take maxCheckAnnotations).getD c.annotations

/-- The status of a check after `UpdateCheckRunStatus`. -/
def Check.withStatus (c : Check) (s : RunStatus) : Check :=
  { c with status := s, summary := if s.isTerminal then trimSpace c.summary else c.summary }

/-- Another row for a check. -/
def State.setCheck (st : State) (id : Nat) (c : Check) : State :=
  { st with checks := st.checks.set id c }

/-- `UpdateCheckRunStatus` finds no row to update: the check has ended, or it was replaced and is
not to be canceled. -/
def Check.refuses (c : Check) (s : RunStatus) : Bool :=
  c.status.isTerminal || c.superseded && s ≠ .canceled

/-- The part of `applyCheck` that sets the status. -/
def applyStatus (run : Run) (env : Env) (st : State) (id : Nat) (c : Check)
    (want : Option RunStatus) : State :=
  match want with
  | none => finishIfDone run env st
  | some s =>
    if s = c.status then finishIfDone run env st
    else if c.refuses s ∨ env.fails .setStatus then st
    else finishIfDone run env (st.setCheck id (c.withStatus s))

/-- The details, and then the status. -/
def applyCheck (run : Run) (env : Env) (st : State) (id : Nat) (c : Check) (want : Option RunStatus)
    (summary url : Option String) (annotations : Option (List AnnotationInput)) : State :=
  if summary.isSome ∨ url.isSome ∨ annotations.isSome then
    if (url.map trimSpace).all validUrl = false ∨ env.fails .setDetails then st
    else
      let c := c.withDetails run summary url annotations
      applyStatus run env (st.setCheck id c) id c want
  else applyStatus run env st id c want

/-! ## Requests -/

/-- A request of a run's script. -/
inductive Request
  /-- `AppendRunLog`: lines with their streams. -/
  | appendRunLog (lines : List (String × String))
  | createCheck (name status summary url : String) (annotations : List AnnotationInput)
  | updateCheck (id : Nat) (status : String) (summary url : Option String) (annotations : List AnnotationInput)
  | finishRun (outcome error : String) (finish wait callback : Bool)

/-- The status that `CreateCheck` is asked for. -/
def wantedStatus (status : String) : String :=
  if trimSpace status = "" then "queued" else trimSpace status

/-- The check that `CreateCheck` creates: only an update records a result for the submit gate. -/
def newCheck (name : String) (want : RunStatus) : Check :=
  ⟨name, false, if want.isTerminal then .running else want, "", "", []⟩

/-- The checks after `CreateCheckRun` has replaced those of a name. -/
def supersede (name : String) (checks : List Check) : List Check :=
  checks.map fun c => if c.name = name then { c with superseded := true } else c

/-- `CreateCheck`. -/
def createCheck (run : Run) (env : Env) (st : State) (name status summary url : String)
    (annotations : List AnnotationInput) : State :=
  if trimSpace name ∉ run.checks ∨ run.changeset = "" ∨ run.patchset = "" then st
  else
    match parseCheckStatus (wantedStatus status) with
    | none => st
    | some want =>
      if env.fails .createCheck then st
      else
        let c := newCheck (trimSpace name) want
        applyCheck run env { st with checks := supersede (trimSpace name) st.checks ++ [c] } st.checks.length c
          (some want) (some summary) (some url) (some annotations)

/-- The annotations of an `UpdateCheck` that has some. -/
def sentAnnotations (annotations : List AnnotationInput) : Option (List AnnotationInput) :=
  if annotations = [] then none else some annotations

/-- `UpdateCheck`. -/
def updateCheck (run : Run) (env : Env) (st : State) (id : Nat) (status : String)
    (summary url : Option String) (annotations : List AnnotationInput) : State :=
  match st.checks[id]? with
  | none => st
  | some c =>
    if env.fails .getCheck then st
    else if trimSpace status = "" then applyCheck run env st id c none summary url (sentAnnotations annotations)
    else
      match parseCheckStatus (trimSpace status) with
      | none => st
      | some want => applyCheck run env st id c (some want) summary url (sentAnnotations annotations)

/-- The reason that `FinishRun` closes checks with. -/
def closeReason (status : Status) (error : String) : String :=
  if status = .succeeded then "the trigger run ended without a result"
  else "the trigger run " ++ status.text ++ ": " ++ error

/-- What `FinishRun` does when it has the update of the run: it writes it, and when the run has
ended it closes its checks. -/
def finishWith (run : Run) (env : Env) (st : State) (status : Status) (error : String) : State :=
  if env.fails .updateRun then st
  else if status.isFinal then
    closeChecks run env { st with status := status, error := error } (truncate (closeReason status error) 500)
  else { st with status := status, error := error }

/-- The error of `FinishRun`: it is not masked when the secrets cannot be read. -/
def finishError (env : Env) (error : String) : String :=
  truncate (match env.secrets with
    | some values => (SecretMask.new values).mask error
    | none => error) 2000

/-- `FinishRun`. -/
def finishRun (run : Run) (env : Env) (st : State) (outcome error : String)
    (finish wait callback : Bool) :
    State :=
  if outcome = "failed" then finishWith run env st .failed (finishError env error)
  else if outcome = "errored" then finishWith run env st .errored (finishError env error)
  else if outcome = "" ∨ outcome = "succeeded" then
    if finish = false ∧ (wait ∨ hasOpenChecks run env st ∨ (callback ∧ st.status = .waiting)) then
      finishWith run env st .waiting ""
    else finishWith run env st (checksOutcome run env st) ""
  else st

/-- A request that a run's token was accepted for. -/
def handle (run : Run) (env : Env) (st : State) : Request → State
  | .appendRunLog lines => appendRunLog env st lines
  | .createCheck name status summary url annotations => createCheck run env st name status summary url annotations
  | .updateCheck id status summary url annotations => updateCheck run env st id status summary url annotations
  | .finishRun outcome error finish wait callback => finishRun run env st outcome error finish wait callback

/-- A request: `call` refuses those of a run that has ended. -/
def step (run : Run) (st : State) (e : Env × Request) : State :=
  if e.1.fails .getRun ∨ st.status.isFinal then st else handle run e.1 st e.2

/-- The rows after the requests of a run that has started. -/
def after (run : Run) (requests : List (Env × Request)) : State :=
  Machine.run (step run) ⟨.running, "", [], []⟩ requests

/-! ## What shows -/

/-- The text of the run's log. -/
def State.logText (st : State) : String := String.ofList (st.logs.flatMap fun log => log.2.toList)

/-- The texts of an annotation. -/
def AnnotationRow.texts (a : AnnotationRow) : List String := [a.path, a.message]

/-- The texts of a check. -/
def Check.texts (c : Check) : List String :=
  c.summary :: c.url :: c.annotations.flatMap AnnotationRow.texts

/-- The texts that readers of a run see. -/
def State.texts (st : State) : List String :=
  st.logText :: st.error :: st.checks.flatMap Check.texts

/-- The texts of a check that a request sends. A path counts as it is stored. -/
def Request.checkTexts (folder : Path) : Request → List String
  | .appendRunLog _ | .finishRun .. => []
  | .createCheck _ _ summary url annotations =>
    summary :: url :: annotations.flatMap fun a => [annotationPath folder a.path, a.message]
  | .updateCheck _ _ summary url annotations =>
    summary.toList ++ url.toList ++ annotations.flatMap fun a => [annotationPath folder a.path,
      a.message]

/-- The request gives the run an error. -/
def Request.hasError : Request → Bool
  | .finishRun outcome .. => outcome = "failed" ∨ outcome = "errored"
  | _ => false

/-- A value does not show in a text. -/
def Silent (v text : String) : Prop := ¬ v.toList <:+: text.toList

instance (v text : String) : Decidable (Silent v text) :=
  inferInstanceAs (Decidable (¬ v.toList <:+: text.toList))

/-- What stands before the error in the reason that checks are closed with. -/
def reasonStarts : List String := ["the trigger run failed: ", "the trigger run errored: "]

/-- A value that the texts the server adds cannot complete: it has neither an asterisk nor an
ellipsis in it; if it has several lines, one of them is masked; and it is neither in the fixed part
of the reason that checks are closed with nor does it begin with what that part ends with. -/
structure Hidable (v : String) : Prop where
  star : '*' ∉ v.toList
  dots : ellipsis ∉ v.toList
  line : ∃ c ∈ SecretMask.candidates v, SecretMask.isCovered c = true ∧ '\n' ∉ c.toList
  ended : Silent v "the trigger run ended without a result"
  reason : ∀ text ∈ reasonStarts, Silent v text ∧ ∀ x ∈ text.toList.tails, x ≠ [] → ¬ x <+: v.toList

/-- A request that stores no secret: the secrets it is masked with are those the run was given, they
can be read when it gives an error, and the texts it sends for a check have no value in them. -/
def Quiet (run : Run) (e : Env × Request) : Prop :=
  (∀ values ∈ e.1.secrets, ∀ v ∈ run.given, v ∈ values) ∧
    (e.2.hasError = true → e.1.secrets.isSome = true) ∧
    ∀ text ∈ e.2.checkTexts run.folder, ∀ v ∈ run.given, SecretMask.isCovered v = true →
      Silent v text

instance (run : Run) (e : Env × Request) : Decidable (Quiet run e) := by
  unfold Quiet
  infer_instance

section Texts

variable {v s : String}

theorem isPrefix_takeBytes (n : Nat) (cs : List Char) : takeBytes n cs <+: cs := by
  induction cs generalizing n with
  | nil => exact nil_prefix
  | cons c cs ih =>
    rw [takeBytes]
    split_ifs
    · exact cons_prefix_cons.mpr ⟨rfl, ih _⟩
    · exact nil_prefix

theorem silent_truncate (hdots : ellipsis ∉ v.toList) (h : Silent v s) (n : Nat) :
    Silent v (truncate s n) := by
  rw [truncate]
  split_ifs
  · exact h
  · intro hshown
    rw [String.toList_ofList] at hshown
    exact h ((Infix.infix_of_infix_concat hshown hdots).trans (isPrefix_takeBytes _ _).isInfix)

theorem silent_trimSpace (h : Silent v s) : Silent v (trimSpace s) :=
  fun hshown => h (hshown.trans (isInfix_trimSpace s))

theorem silent_empty (hv : v.toList ≠ []) : Silent v "" := fun h => hv (infix_nil.mp h)

theorem silent_reason (h : Hidable v) (start : String) (hstart : start ∈ reasonStarts)
    {error : String} (herror : Silent v error) : Silent v (start ++ error) := by
  intro hshown
  rw [String.toList_append] at hshown
  obtain ⟨hfixed, hend⟩ := h.reason start hstart
  rcases infix_append_iff_ne_nil.mp hshown with hin | hin | ⟨x, y, hx, -, hv, hsuffix, -⟩
  · exact hfixed hin
  · exact herror hin
  · exact hend x ((mem_tails _ _).mpr hsuffix) hx ⟨y, hv.symm⟩

end Texts

/-! ## Logs -/

section Logs

/-- A text made of lines in none of which a value shows. -/
def Lines (c : String) (text : List Char) : Prop :=
  ∃ parts : List (List Char), text = (parts.map (· ++ ['\n'])).flatten ∧
    ∀ part ∈ parts, ¬ c.toList <:+: part

variable {c : String} {text text' : List Char}

theorem Lines.nil : Lines c [] := ⟨[], rfl, by simp⟩

theorem Lines.append (h : Lines c text) (h' : Lines c text') : Lines c (text ++ text') := by
  obtain ⟨parts, rfl, hparts⟩ := h
  obtain ⟨parts', rfl, hparts'⟩ := h'
  exact ⟨parts ++ parts', by rw [map_append, flatten_append],
    forall_mem_append.mpr ⟨hparts, hparts'⟩⟩

theorem Lines.silent (h : Lines c text) (hc : c.toList ≠ []) (hline : '\n' ∉ c.toList) :
    ¬ c.toList <:+: text := by
  obtain ⟨parts, rfl, hparts⟩ := h
  intro hshown
  obtain ⟨part, hpart, hin⟩ := Infix.infix_of_infix_terminated hc hline hshown
  exact hparts part hpart hin

variable {values : List String} (hc : c ∈ SecretMask.new values) (hstar : '*' ∉ c.toList)
include hc hstar

theorem lines_maskedLine (line : String) : Lines c (maskedLine values line ++ "\n").toList := by
  refine ⟨[(maskedLine values line).toList], by simp, fun part hpart => ?_⟩
  rw [mem_singleton.mp hpart]
  exact SecretMask.not_infix_mask_single_of_mem hc hstar (truncate line maxTriggerLogLine)

omit hc hstar in
theorem lines_flush {env : Env} {logs logs' : List (String × String)} {stream chunk : String}
    (hlogs : Lines c (logs.flatMap fun log => log.2.toList)) (hchunk : Lines c chunk.toList)
    (h : flush env logs stream chunk = .ok logs' ∨ flush env logs stream chunk = .error logs') :
    Lines c (logs'.flatMap fun log => log.2.toList) := by
  rw [flush] at h
  split_ifs at h <;> rcases h with h | h <;> cases h
  · exact hlogs
  · exact hlogs
  · rw [flatMap_append, flatMap_singleton]
    exact hlogs.append hchunk

/-- The loop of `AppendRunLog` writes masked lines, also if it fails. -/
theorem lines_appendLines {env : Env} {logs logs' : List (String × String)} {stream chunk : String}
    {lines : List (String × String)} (hlogs : Lines c (logs.flatMap fun log => log.2.toList))
    (hchunk : Lines c chunk.toList)
    (h : appendLines env values logs stream chunk lines = .ok logs' ∨
      appendLines env values logs stream chunk lines = .error logs') :
    Lines c (logs'.flatMap fun log => log.2.toList) := by
  induction lines generalizing logs stream chunk with
  | nil => exact lines_flush hlogs hchunk h
  | cons line lines ih =>
    rw [appendLines] at h
    split_ifs at h with hstream
    · cases hflush : flush env logs stream chunk with
      | error =>
        rw [hflush] at h
        rcases h with h | h <;> cases h
        exact lines_flush hlogs hchunk (.inr hflush)
      | ok =>
        rw [hflush] at h
        exact ih (lines_flush hlogs hchunk (.inl hflush)) (lines_maskedLine hc hstar line.2) h
    · refine ih hlogs ?_ h
      rw [String.append_assoc, String.toList_append]
      exact hchunk.append (lines_maskedLine hc hstar line.2)

end Logs

/-! ## One request -/

/-- A value that is masked for another one, and that no text the server adds completes. -/
structure Masked (run : Run) (v c : String) : Prop where
  hidable : Hidable v
  part : c.toList <:+: v.toList
  nonempty : c.toList ≠ []
  oneLine : '\n' ∉ c.toList
  masked : ∀ values, (∀ v ∈ run.given, v ∈ values) → c ∈ SecretMask.new values

theorem exists_masked {run : Run} {v : String} (hv : v ∈ run.given) (h : Hidable v) :
    ∃ c, Masked run v c := by
  obtain ⟨c, hc, hcovered, hline⟩ := h.line
  have hpre := SecretMask.trimReturns_prefix c
  have hmem : ∀ values, (∀ v ∈ run.given, v ∈ values) →
      SecretMask.trimReturns c ∈ SecretMask.new values :=
    fun values hgiven => SecretMask.mem_new.mpr ⟨v, hgiven v hv, c, hc, hcovered, rfl⟩
  exact ⟨SecretMask.trimReturns c, h, hpre.isInfix.trans (SecretMask.infix_of_mem_candidates hc),
    SecretMask.ne_empty_of_mem_new (hmem run.given fun _ h => h), fun hmem => hline (hpre.subset hmem), hmem⟩

namespace Masked

variable {run : Run} {v c : String} (h : Masked run v c)
include h

theorem star : '*' ∉ c.toList := fun hmem => h.hidable.star (h.part.subset hmem)

theorem value_ne_nil : v.toList ≠ [] := fun hnil => h.nonempty (infix_nil.mp (hnil ▸ h.part))

theorem silent_mask {values : List String} (hgiven : ∀ v ∈ run.given, v ∈ values) (text : String) :
    Silent v ((SecretMask.new values).mask text) := fun hshown =>
  SecretMask.not_infix_mask_single_of_mem (h.masked values hgiven) h.star text (h.part.trans hshown)

end Masked

/-- No text of a run shows a value. Its log is made of lines that do not show what is masked for
it. -/
structure Hides (v c : String) (st : State) : Prop where
  error : Silent v st.error
  log : Lines c (st.logs.flatMap fun log => log.2.toList)
  checks : ∀ check ∈ st.checks, ∀ text ∈ check.texts, Silent v text

section Steps

variable {run : Run} {v c : String} {env : Env} {st : State} {check : Check} {summary url : Option String}

theorem silent_withStatus (hcheck : ∀ text ∈ check.texts, Silent v text) (s : RunStatus) :
    ∀ text ∈ (check.withStatus s).texts, Silent v text := by
  rw [Check.texts, forall_mem_cons] at hcheck
  rw [Check.texts, forall_mem_cons]
  refine ⟨?_, hcheck.2⟩
  rw [Check.withStatus]
  split_ifs
  · exact silent_trimSpace hcheck.1
  · exact hcheck.1

/-- What a request sends for a check. -/
structure Sends (run : Run) (v : String) (summary url : Option String)
    (annotations : Option (List AnnotationInput)) : Prop where
  summary : ∀ s ∈ summary, Silent v s
  url : ∀ s ∈ url, Silent v s
  annotations : ∀ as ∈ annotations, ∀ a ∈ as, Silent v (annotationPath run.folder a.path) ∧
    Silent v a.message

theorem silent_stored (hdots : ellipsis ∉ v.toList) {folder : Path} {a : AnnotationInput}
    (hpath : Silent v (annotationPath folder a.path)) (hmessage : Silent v a.message) :
    ∀ text ∈ (a.stored folder).texts, Silent v text := by
  simp only [AnnotationRow.texts, AnnotationInput.stored, forall_mem_cons]
  exact ⟨hpath, silent_truncate hdots hmessage 2000, by simp⟩

variable {annotations : Option (List AnnotationInput)}

theorem silent_withDetails (hdots : ellipsis ∉ v.toList)
    (hsends : Sends run v summary url annotations) (hcheck : ∀ text ∈ check.texts, Silent v text) :
    ∀ text ∈ (check.withDetails run summary url annotations).texts, Silent v text := by
  rw [Check.texts, forall_mem_cons, forall_mem_cons, forall_mem_flatMap] at hcheck ⊢
  obtain ⟨hsummary, hurl, hannotations⟩ := hcheck
  refine ⟨?_, ?_, ?_⟩
  · cases summary with
    | none => exact hsummary
    | some s => exact silent_truncate hdots (hsends.summary s rfl) maxTriggerSummary
  · cases url with
    | none => exact hurl
    | some s => exact silent_trimSpace (hsends.url s rfl)
  · cases annotations with
    | none => exact hannotations
    | some as =>
      intro row hrow
      obtain ⟨a, ha, rfl⟩ := mem_map.mp (mem_of_mem_take hrow)
      obtain ⟨hpath, hmessage⟩ := hsends.annotations as rfl a ha
      exact silent_stored hdots hpath hmessage

theorem silent_finishError (hm : Masked run v c)
    (hgiven : ∀ values ∈ env.secrets, ∀ v ∈ run.given, v ∈ values)
    (hread : env.secrets.isSome = true) (error : String) : Silent v (finishError env error) := by
  obtain ⟨values, hvalues⟩ := Option.isSome_iff_exists.mp hread
  rw [finishError, hvalues]
  exact silent_truncate hm.hidable.dots (hm.silent_mask (hgiven values hvalues) error) 2000

theorem checksOutcome_mem (run : Run) (env : Env) (st : State) :
    checksOutcome run env st ∈ [Status.waiting, .succeeded, .failed, .errored] := by
  rw [checksOutcome]
  split_ifs <;> simp

variable (hm : Masked run v c) (h : Hides v c st)
include h

theorem hides_finishIfDone : Hides v c (finishIfDone run env st) := by
  rw [finishIfDone]
  split_ifs
  · exact ⟨h.error, h.log, h.checks⟩
  · exact h

theorem hides_setCheck (hcheck : ∀ text ∈ check.texts, Silent v text) (id : Nat) :
    Hides v c (st.setCheck id check) := by
  refine ⟨h.error, h.log, fun check' hmem => ?_⟩
  rcases mem_or_eq_of_mem_set hmem with hmem | rfl
  · exact h.checks check' hmem
  · exact hcheck

theorem hides_applyStatus (hcheck : ∀ text ∈ check.texts, Silent v text)
    (id : Nat) (want : Option RunStatus) : Hides v c (applyStatus run env st id check want) := by
  cases want with
  | none => exact hides_finishIfDone h
  | some s =>
    rw [applyStatus]
    split_ifs
    · exact hides_finishIfDone h
    · exact h
    · exact hides_finishIfDone (hides_setCheck h (silent_withStatus hcheck _) id)

theorem hides_closeChecks {summary : String} (hsummary : Silent v summary) :
    Hides v c (closeChecks run env st summary) := by
  rw [closeChecks]
  split_ifs
  · exact h
  · refine ⟨h.error, h.log, fun check hcheck => ?_⟩
    obtain ⟨i, hi, rfl⟩ := mem_mapIdx.mp hcheck
    have hold := h.checks _ (getElem_mem hi)
    split_ifs
    · rw [Check.texts, forall_mem_cons] at hold
      rw [Check.texts, forall_mem_cons]
      exact ⟨silent_trimSpace hsummary, hold.2⟩
    · exact hold

include hm

theorem silent_texts : ∀ text ∈ st.texts, Silent v text := by
  intro text htext
  rcases mem_cons.mp htext with rfl | htext
  · intro hshown
    rw [State.logText, String.toList_ofList] at hshown
    exact h.log.silent hm.nonempty hm.oneLine (hm.part.trans hshown)
  rcases mem_cons.mp htext with rfl | htext
  · exact h.error
  · obtain ⟨check, hcheck, hmem⟩ := mem_flatMap.mp htext
    exact h.checks check hcheck text hmem

theorem hides_appendRunLog (hgiven : ∀ values ∈ env.secrets, ∀ v ∈ run.given, v ∈ values)
    (lines : List (String × String)) : Hides v c (appendRunLog env st lines) := by
  rw [appendRunLog]
  split_ifs
  · exact h
  · cases hsecrets : env.secrets with
    | none => exact h
    | some values =>
      have hc := hm.masked values (hgiven values hsecrets)
      have hlogs : ∀ logs, appendLines env values st.logs "stdout" "" lines = .ok logs ∨
          appendLines env values st.logs "stdout" "" lines = .error logs →
            Hides v c { st with logs := logs } :=
        fun _ happend => { h with log := lines_appendLines hc hm.star h.log Lines.nil happend }
      cases happend : appendLines env values st.logs "stdout" "" lines with
      | ok logs =>
        simp only [happend]
        exact hlogs logs (.inl happend)
      | error logs =>
        simp only [happend]
        exact hlogs logs (.inr happend)

theorem hides_applyCheck
    (hcheck : ∀ text ∈ check.texts, Silent v text)
    (hsends : Sends run v summary url annotations) (id : Nat) (want : Option RunStatus) :
    Hides v c (applyCheck run env st id check want summary url annotations) := by
  rw [applyCheck]
  split_ifs
  · exact h
  · have hdetails := silent_withDetails hm.hidable.dots hsends hcheck
    exact hides_applyStatus (hides_setCheck h hdetails id) hdetails id want
  · exact hides_applyStatus h hcheck id want

theorem hides_finishWith {status : Status} {error : String}
    (hstatus : status ∈ [Status.waiting, .succeeded, .failed, .errored]) (herror : Silent v error) :
    Hides v c (finishWith run env st status error) := by
  have hwritten : Hides v c { st with status := status, error := error } :=
    ⟨herror, h.log, h.checks⟩
  rw [finishWith]
  split_ifs with hfails hfinal
  · exact h
  · refine hides_closeChecks hwritten (silent_truncate hm.hidable.dots ?_ 500)
    simp only [mem_cons, not_mem_nil, or_false] at hstatus
    rcases hstatus with rfl | rfl | rfl | rfl
    · cases hfinal
    · exact hm.hidable.ended
    · exact silent_reason hm.hidable "the trigger run failed: " (by simp [reasonStarts]) herror
    · exact silent_reason hm.hidable "the trigger run errored: " (by simp [reasonStarts]) herror
  · exact hwritten

theorem hides_finishRun
    (hgiven : ∀ values ∈ env.secrets, ∀ v ∈ run.given, v ∈ values) {outcome error : String}
    {finish wait callback : Bool}
    (hread : (Request.finishRun outcome error finish wait callback).hasError = true →
      env.secrets.isSome = true) :
    Hides v c (finishRun run env st outcome error finish wait callback) := by
  have hempty := silent_empty hm.value_ne_nil
  rw [finishRun]
  split_ifs with hfailed herrored
  · exact hides_finishWith hm h (by simp)
      (silent_finishError hm hgiven (hread (by simp [Request.hasError, hfailed])) error)
  · exact hides_finishWith hm h (by simp)
      (silent_finishError hm hgiven (hread (by simp [Request.hasError, herrored])) error)
  · exact hides_finishWith hm h (by simp) hempty
  · exact hides_finishWith hm h (checksOutcome_mem run env st) hempty
  · exact h

theorem hides_createCheck {name status summary url : String}
    {annotations : List AnnotationInput}
    (hsends : Sends run v (some summary) (some url) (some annotations)) :
    Hides v c (createCheck run env st name status summary url annotations) := by
  have hempty := silent_empty hm.value_ne_nil
  have hcheck : ∀ want, ∀ text ∈ (newCheck (trimSpace name) want).texts, Silent v text := by
    simp [Check.texts, newCheck, hempty]
  have hreplaced : ∀ check ∈ supersede (trimSpace name) st.checks, ∀ text ∈ check.texts, Silent v text := by
    refine forall_mem_map.mpr fun check hmem => ?_
    split_ifs
    · exact h.checks check hmem
    · exact h.checks check hmem
  have hcreated : ∀ want, Hides v c
      { st with checks := supersede (trimSpace name) st.checks ++ [newCheck (trimSpace name) want] } := fun want =>
    ⟨h.error, h.log, forall_mem_append.mpr ⟨hreplaced, forall_mem_singleton.mpr (hcheck want)⟩⟩
  rw [createCheck]
  cases parseCheckStatus (wantedStatus status) with
  | none => split_ifs <;> exact h
  | some want =>
    split_ifs
    · exact h
    · exact h
    · exact hides_applyCheck hm (hcreated want) (hcheck want) hsends st.checks.length (some want)

theorem hides_updateCheck {id : Nat} {status : String}
    {annotations : List AnnotationInput} (hsends : Sends run v summary url (some annotations)) :
    Hides v c (updateCheck run env st id status summary url annotations) := by
  have hsends' : Sends run v summary url (sentAnnotations annotations) := by
    refine ⟨hsends.summary, hsends.url, fun as has => ?_⟩
    rw [sentAnnotations] at has
    split_ifs at has
    · cases has
    · exact hsends.annotations as has
  rw [updateCheck]
  cases hget : st.checks[id]? with
  | none => exact h
  | some check =>
    have hcheck := h.checks check (mem_of_getElem? hget)
    split_ifs
    · exact h
    · exact hides_applyCheck hm h hcheck hsends' id none
    · cases parseCheckStatus (trimSpace status) with
      | none => exact h
      | some want => exact hides_applyCheck hm h hcheck hsends' id (some want)

theorem hides_step (hv : v ∈ run.given) (hcovered : SecretMask.isCovered v = true)
    {e : Env × Request} (hquiet : Quiet run e) : Hides v c (step run st e) := by
  obtain ⟨env, request⟩ := e
  obtain ⟨hgiven, hread, htexts⟩ := hquiet
  have hsilent := fun text htext => htexts text htext v hv hcovered
  rw [step]
  split_ifs
  · exact h
  · cases request with
    | appendRunLog lines => exact hides_appendRunLog hm h hgiven lines
    | createCheck =>
      simp only [Request.checkTexts, forall_mem_cons, forall_mem_flatMap] at hsilent
      obtain ⟨hsummary, hurl, hannotations⟩ := hsilent
      simp only [handle]
      refine hides_createCheck hm h ⟨?_, ?_, ?_⟩
      · rintro s ⟨⟩
        exact hsummary
      · rintro s ⟨⟩
        exact hurl
      · rintro as ⟨⟩ a ha
        exact ⟨(hannotations a ha).1, (hannotations a ha).2.1⟩
    | updateCheck =>
      simp only [Request.checkTexts, forall_mem_append, forall_mem_cons,
        forall_mem_flatMap] at hsilent
      obtain ⟨⟨hsummary, hurl⟩, hannotations⟩ := hsilent
      simp only [handle]
      refine hides_updateCheck hm h ⟨?_, ?_, ?_⟩
      · exact fun s hs => hsummary s (Option.mem_toList.mpr hs)
      · exact fun s hs => hurl s (Option.mem_toList.mpr hs)
      · rintro as ⟨⟩ a ha
        exact ⟨(hannotations a ha).1, (hannotations a ha).2.1⟩
    | finishRun => exact hides_finishRun hm h hgiven hread

end Steps

/-- **No secret shows in what a trigger run wrote** when its requests store none. -/
theorem texts_silent {run : Run}
    (hvalues : ∀ v ∈ run.given, SecretMask.isCovered v = true → Hidable v)
    {requests : List (Env × Request)} (hquiet : ∀ e ∈ requests, Quiet run e) {v : String}
    (hv : v ∈ run.given) (hcovered : SecretMask.isCovered v = true) :
    ∀ text ∈ (after run requests).texts, Silent v text := by
  obtain ⟨c, hm⟩ := exists_masked hv (hvalues v hv hcovered)
  have hides : ∀ {st}, Hides v c st → Hides v c (Machine.run (step run) st requests) := by
    induction requests with
    | nil => exact fun h => h
    | cons e requests ih =>
      intro st h
      rw [forall_mem_cons] at hquiet
      exact ih hquiet.2 (hides_step hm h hv hcovered hquiet.1)
  exact silent_texts hm (hides ⟨silent_empty hm.value_ne_nil, Lines.nil, by simp⟩)

/-- A run that was given one secret. -/
def oneSecret : Run := ⟨["acme", "app"], "c1", "p1", ["ci"], ["secret"]⟩

/-- A line of the log and an error with a secret, and a check without it. -/
theorem texts_silent_oneSecret : SecretMask.isCovered "secret" = true ∧ ∀ text ∈ (after oneSecret
    [(Env.sound ["secret"], .appendRunLog [("stdout", "a secret"), ("stderr", "secret")]),
      (Env.sound ["secret"], .createCheck "ci" "running" "at work" "" [⟨"a.go", 1, 1, "notice", "odd"⟩]),
      (Env.sound ["secret"], .finishRun "failed" "no secret" false false false)]).texts, Silent "secret" text := by
  refine ⟨by decide +kernel, texts_silent (fun v hv _ => ?_) (by decide +kernel) mem_cons_self (by decide +kernel)⟩
  rw [mem_singleton.mp hv]
  exact ⟨by decide +kernel, by decide +kernel, by decide +kernel, by decide +kernel,
    by decide +kernel⟩

/-- A check's summary and annotations are not masked, nor is an error when the secrets cannot be
read. -/
theorem texts_show_secret :
    (after oneSecret [(Env.sound ["secret"],
        .createCheck "ci" "failed" "got secret" "" [⟨"a.go", 1, 1, "failure", "secret"⟩])]).checks =
        [⟨"ci", false, .failed, "", "got secret", [⟨"/acme/app/a.go", 1, 1, .failure, "secret"⟩]⟩] ∧
      (after oneSecret [(⟨none, fun _ => false⟩, .finishRun "failed" "got secret" false false false)]).error =
        "got secret" := by
  decide +kernel

end RunOutput

end GitSlice
