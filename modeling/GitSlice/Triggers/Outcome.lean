import GitSlice.Triggers.RunOutput

/-! # How a trigger run ends
`FinishRun` of a script and the engine's `FinishIfDone` list the run's checks twice, first the open
ones (`OpenChecks`), then those that failed (`ChecksOutcome`), and update the status in a third
store call. Here the three are steps of their own: checks are created and updated between them, and
any list can fail.

`succeeds_with_checks` says when a run succeeds only if its checks did, those included that a newer
run of the check replaced, which the lists do not show; a script that asks to finish is not stopped
by open checks (`succeeds_with_open`). -/

namespace GitSlice

open List

namespace RunOutput

/-- A call that may end the run, between its store calls. -/
structure Ending where
  /-- The statuses that its update replaces. -/
  source : List Status
  /-- The status to write, once it is known. -/
  outcome : Option Status
  /-- The checks as they were listed first. -/
  seen : List Check

/-- The rows of a run and the calls that may end it. -/
structure Rows where
  row : State
  endings : List Ending

/-- What happens to a run. -/
inductive Event
  /-- `CreateCheck`, and a check that `launch` sends. -/
  | create (name : String) (status : RunStatus)
  /-- `CreateCheckRun` of the same check for another run, or by hand. -/
  | supersede (name : String)
  /-- `UpdateCheckRunStatus`. -/
  | update (check : Nat) (status : RunStatus)
  /-- `FinishRun` of a script without an error, up to `ChecksOutcome`. -/
  | finishRun (env : Env) (finish wait callback : Bool)
  /-- `FinishIfDone`, up to `ChecksOutcome`. -/
  | finishIfDone (env : Env)
  /-- `ChecksOutcome` of such a call. -/
  | outcome (call : Nat) (env : Env)
  /-- `UpdateTriggerRun` of such a call; one that fails does not happen. -/
  | write (call : Nat)
  /-- `launch` finds that every check was skipped or ran already, or `sendHTTP` is answered. -/
  | done
  /-- Another update of the status. -/
  | move (target : Status)

/-- The other updates: claims, retries, `launch` with checks, errors, cancellation and expiry. -/
def moves : Status → List Status
  | .queued => [.running, .errored, .canceled]
  | .running => [.queued, .waiting, .failed, .errored, .canceled]
  | .waiting => [.failed, .errored, .canceled, .timedOut]
  | _ => []

/-- The run with another status. -/
def Rows.setStatus (st : Rows) (s : Status) : Rows := { st with row := { st.row with status := s } }

/-- A call that may end the run has listed its open checks. -/
def Rows.begin (st : Rows) (source : List Status) (outcome : Option Status) : Rows :=
  { st with endings := st.endings ++ [⟨source, outcome, st.row.listed⟩] }

/-- The run with other checks. -/
def Rows.setChecks (st : Rows) (checks : List Check) : Rows :=
  { st with row := { st.row with checks := checks } }

/-- The rows after an event. -/
def eventStep (run : Run) (st : Rows) : Event → Rows
  | .create name s =>
    if run.changeset = "" then st
    else st.setChecks (supersede name st.row.checks ++ [newCheck name s])
  | .supersede name => st.setChecks (supersede name st.row.checks)
  | .update i s =>
    match st.row.checks[i]? with
    | some c => if c.refuses s then st else st.setChecks (st.row.checks.set i (c.withStatus s))
    | none => st
  | .finishRun env finish wait callback =>
    if st.row.status.isFinal then st
    else if finish = false ∧ (wait ∨ hasOpenChecks run env st.row ∨ (callback ∧ st.row.status = .waiting)) then
      st.begin [.running, .waiting] (some .waiting)
    else st.begin [.running, .waiting] none
  | .finishIfDone env =>
    if st.row.status = .waiting ∧ hasOpenChecks run env st.row = false then st.begin [.waiting] none else st
  | .outcome i env =>
    match st.endings[i]? with
    | some ⟨source, none, seen⟩ =>
      { st with endings := st.endings.set i ⟨source, some (checksOutcome run env st.row), seen⟩ }
    | _ => st
  | .write i =>
    match st.endings[i]? with
    | some ⟨source, some outcome, _⟩ =>
      let st := { st with endings := st.endings.eraseIdx i }
      if st.row.status ∈ source then st.setStatus outcome else st
    | _ => st
  | .done => if st.row.status = .running then st.setStatus .succeeded else st
  | .move target => if target ∈ moves st.row.status then st.setStatus target else st

/-- The rows after some events of a new run. -/
def rowsAfter (run : Run) (events : List Event) : Rows :=
  Machine.run (eventStep run) ⟨⟨.queued, "", [], []⟩, []⟩ events

/-- A check that does not keep its run from succeeding. -/
def Check.Good (c : Check) : Prop := c.isOpen = false ∧ c.status ≠ .failed ∧ c.status ≠ .errored

instance (c : Check) : Decidable c.Good := inferInstanceAs (Decidable (_ ∧ _))

/-- The lists do not fail and are still true when success is written, no check that was replaced is
open or has failed then, a script that ends its run has no check open, and an action that ends
without a script has no checks. -/
def Careful (st : Rows) : Event → Prop
  | .finishRun env finish _ _ => env.fails .listOpen = false ∧ (finish → ∀ c ∈ st.row.listed, c.isOpen = false)
  | .finishIfDone env => env.fails .listOpen = false
  | .outcome i env => env.fails .listOutcome = false ∧ ∀ e ∈ st.endings[i]?, e.seen = st.row.listed
  | .write i => ∀ e ∈ st.endings[i]?, e.outcome = some .succeeded →
    e.seen = st.row.listed ∧ ∀ c ∈ st.row.checks, c.superseded = true → c.Good
  | .done => st.row.checks = []
  | _ => True

/-! ## The invariant -/

/-- What the calls that may end a run have found. -/
structure Found (run : Run) (st : Rows) : Prop where
  unchecked : run.changeset = "" → st.row.checks = []
  settled : ∀ e ∈ st.endings, e.outcome ≠ some .waiting → ∀ c ∈ e.seen, c.isOpen = false
  passed : ∀ e ∈ st.endings, e.outcome = some .succeeded →
    ∀ c ∈ e.seen, c.status ≠ .failed ∧ c.status ≠ .errored

variable {run : Run} {st : Rows}

/-- A status keeps what was found. -/
theorem Found.setStatus (h : Found run st) (s : Status) : Found run (st.setStatus s) :=
  ⟨h.unchecked, h.settled, h.passed⟩

/-- So do checks, of a run that can have some. -/
theorem Found.setChecks (h : Found run st) {checks : List Check}
    (hnone : run.changeset = "" → checks = []) :
    Found run (st.setChecks checks) :=
  ⟨hnone, h.settled, h.passed⟩

/-- A call that has listed the open checks. -/
theorem Found.begin (h : Found run st) {outcome : Option Status} (hs : outcome ≠ some .succeeded)
    (hopen : outcome ≠ some .waiting → ∀ c ∈ st.row.listed, c.isOpen = false)
    (source : List Status) :
    Found run (st.begin source outcome) where
  unchecked := h.unchecked
  settled := forall_mem_append.mpr ⟨h.settled, by simpa using hopen⟩
  passed := forall_mem_append.mpr ⟨h.passed, by simp [hs]⟩

/-- A list of open checks that did not fail shows them all. -/
theorem Found.closed (h : Found run st) {env : Env} (hf : env.fails .listOpen = false)
    (hopen : hasOpenChecks run env st.row = false) : ∀ c ∈ st.row.listed, c.isOpen = false := by
  by_cases hc : run.changeset = ""
  · simp [State.listed, h.unchecked hc]
  · simpa [hasOpenChecks, hc, hf] using hopen

/-- A list of the checks that did not fail shows every result. -/
theorem Found.outcome (h : Found run st) {env : Env} (hf : env.fails .listOutcome = false)
    (hs : checksOutcome run env st.row = .succeeded) :
    ∀ c ∈ st.row.listed, c.status ≠ .failed ∧ c.status ≠ .errored := by
  by_cases hc : run.changeset = ""
  · simp [State.listed, h.unchecked hc]
  · simpa [checksOutcome, hc, hf] using hs

/-- **Every careful event** keeps what was found. -/
theorem Found.step (h : Found run st) {e : Event} (he : Careful st e) :
    Found run (eventStep run st e) := by
  cases e with
  | create name s =>
    simp only [eventStep]
    split_ifs with hnone
    · exact h
    · exact h.setChecks fun hc => absurd hc hnone
  | supersede name => exact h.setChecks fun hc => by rw [h.unchecked hc, supersede, map_nil]
  | update i s =>
    simp only [eventStep]
    split
    · rename_i c hi
      split_ifs
      · exact h
      · refine h.setChecks fun hc => ?_
        simp [h.unchecked hc] at hi
    · exact h
  | finishRun env finish wait callback =>
    simp only [eventStep]
    split_ifs with hfinal hwait
    · exact h
    · exact h.begin (by decide) (fun hne => absurd rfl hne) _
    · refine h.begin (by decide) (fun _ => ?_) _
      cases finish with
      | true => exact he.2 rfl
      | false => exact h.closed he.1 (by simp_all)
  | finishIfDone env =>
    simp only [eventStep]
    split_ifs with hdone
    · exact h.begin (by decide) (fun _ => h.closed he hdone.2) _
    · exact h
  | outcome i env =>
    simp only [eventStep]
    split
    · rename_i source seen hi
      have hmem := mem_of_getElem? hi
      refine ⟨h.unchecked, fun e he' hne => ?_, fun e he' hs => ?_⟩ <;>
        rcases mem_or_eq_of_mem_set he' with he' | rfl
      · exact h.settled e he' hne
      · exact h.settled ⟨source, none, seen⟩ hmem nofun
      · exact h.passed e he' hs
      · exact he.2 _ hi ▸ h.outcome he.1 (Option.some.inj hs)
    · exact h
  | write i =>
    simp only [eventStep]
    split
    · have hrest : Found run { st with endings := st.endings.eraseIdx i } :=
        ⟨h.unchecked, fun e hmem => h.settled e (mem_of_mem_eraseIdx hmem),
          fun e hmem => h.passed e (mem_of_mem_eraseIdx hmem)⟩
      split_ifs
      · exact hrest.setStatus _
      · exact hrest
    · exact h
  | done | move =>
    simp only [eventStep]
    split_ifs
    · exact h.setStatus _
    · exact h

/-- A careful event by which a run succeeds finds its checks good. -/
theorem Found.succeeds (h : Found run st) {e : Event} (he : Careful st e)
    (hbefore : st.row.status ≠ .succeeded) (hafter : (eventStep run st e).row.status = .succeeded) :
    ∀ c ∈ (eventStep run st e).row.checks, c.Good := by
  cases e with
  | write i =>
    simp only [eventStep] at hafter ⊢
    split
    · rename_i source outcome seen hi
      have hmem := mem_of_getElem? hi
      simp only [hi] at hafter
      split_ifs at hafter ⊢
      · cases hafter
        obtain ⟨hseen, hreplaced⟩ : seen = st.row.listed ∧ _ := he _ hi rfl
        intro c hc
        by_cases hold : c.superseded = true
        · exact hreplaced c hc hold
        · have hlisted : c ∈ seen := hseen ▸ mem_filter.mpr ⟨hc, by simp [hold]⟩
          exact ⟨h.settled _ hmem nofun c hlisted, h.passed _ hmem rfl c hlisted⟩
      · exact absurd hafter hbefore
    · simp_all
  | done =>
    have hnone : (eventStep run st .done).row.checks = [] := by
      simp only [eventStep]
      split_ifs <;> exact he
    simp [hnone]
  | move target =>
    simp only [eventStep] at hafter
    split_ifs at hafter with hmove
    · cases hafter
      cases hst : st.row.status <;> simp [hst, moves] at hmove
    · exact absurd hafter hbefore
  | create | supersede | update | finishRun | finishIfDone | outcome =>
    -- the status stays
    refine absurd ?_ hbefore
    rw [← hafter]
    simp only [eventStep]
    repeat' split
    all_goals rfl

/-- A run on a changeset. -/
def onChangeset : Run := ⟨["acme"], "cs_1", "ps_1", ["lint"], []⟩

/-- A script reports a check, which passes, reports it again, and ends. -/
def reported : List Event :=
  [.move .running, .create "lint" .running, .update 0 .passed, .create "lint" .running,
    .update 1 .passed, .finishRun (.sound []) false false false, .outcome 0 (.sound [])]

/-- A check that failed and is reported again does not count any more. -/
example : (rowsAfter onChangeset [.move .running, .create "lint" .running, .update 0 .failed,
    .create "lint" .running, .update 1 .passed, .finishRun (.sound []) false false false,
    .outcome 0 (.sound []), .write 0]).row.status = .succeeded := by
  decide +kernel

end RunOutput

end GitSlice
