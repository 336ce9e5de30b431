import GitSlice.Checks.Runs
import GitSlice.SecretMask

/-! # Reports of check daemons
`handleCheckRunUpdate` stores what a daemon reports on a run: a chunk of its log under the daemon's
sequence number, and its status with a summary, both with the secrets at the check's folder masked.
It acknowledges an update that it stored or that the store refuses, and stays silent when a store
call failed for another reason.

`reports_masked` says when no secret shows in what is stored. Each chunk is masked by itself, so a
value that two chunks cut is stored; a value that reaches from inside another one to behind it is
stored in part; and when the secrets cannot be read, nothing is masked. -/

namespace GitSlice

open List

namespace CheckReports

/-- `CheckRunUpdate`. -/
structure Update where
  /-- `run_id`. -/
  runId : RunID
  /-- `client_seq`. -/
  clientSeq : Int
  status : String
  stream : String
  /-- `log_chunk`. -/
  logChunk : String
  /-- `exit_code`. -/
  exitCode : Int
  summary : String
  final : Bool
deriving DecidableEq

/-- A row of `check_run_logs`. -/
structure LogRow where
  stream : String
  chunk : String
deriving DecidableEq

/-- A run, with the daemon it was given to. -/
structure Run where
  /-- The row of `check_runs`. -/
  row : RunRow
  /-- `daemon_id`. -/
  daemon : String
deriving DecidableEq

/-- The columns `UpdateCheckRunStatus` writes for an update. -/
def Run.withStatus (run : Run) (s : RunStatus) (u : Update) : Run :=
  { run with row := run.row.withStatus s u.exitCode (trimSpace u.summary) }

/-- The tables of the reports. -/
structure Store where
  /-- `check_runs`. -/
  runs : Table RunID Run
  /-- `check_run_logs`. -/
  logs : Table (RunID × Int) LogRow

/-- The store calls for one update that fail, for a reason that may pass. -/
structure Faults where
  /-- `GetCheckRun`. -/
  getRun : Bool
  /-- `Changesets.Get` or `SecretValuesAt`. -/
  readSecrets : Bool
  /-- `AppendCheckRunLog`. -/
  appendLog : Bool
  /-- `UpdateCheckRunStatus`, before it commits. -/
  updateStatus : Bool
  /-- `UpdateCheckRunStatus`, when it reads the run after it committed. -/
  reread : Bool
deriving DecidableEq

/-- Every call succeeds. -/
def Faults.none : Faults := ⟨false, false, false, false, false⟩

/-- A stream other than `stderr` is `stdout`. -/
def defaultCheckStream (stream : String) : String :=
  if toLower (trimSpace stream) = "stderr" then "stderr" else "stdout"

/-- `AppendCheckRunLog`: a sequence number that is taken keeps its chunk. -/
def Store.appendCheckRunLog (st : Store) (u : Update) : Store :=
  { st with logs := st.logs.insertNew (u.runId, u.clientSeq) ⟨defaultCheckStream u.stream, u.logChunk⟩ }

/-- `UpdateCheckRunStatus`, and whether the update is acknowledged. A status that is unknown and a
run that has ended are refused for good. -/
def Store.updateCheckRunStatus (st : Store) (u : Update) (status : String) (f : Faults) :
    Store × Bool :=
  match normalizeCheckRunStatus status with
  | .none => (st, true)
  | some s =>
    if f.updateStatus then (st, false)
    else
      match st.runs.get u.runId with
      | .none => (st, true)
      | some run =>
        if run.row.accepts s then
          ({ st with runs := st.runs.set u.runId (run.withStatus s u) }, !f.reread)
        else (st, true)

/-- The part of `handleCheckRunUpdate` after the log. -/
def Store.reportStatus (st : Store) (u : Update) (f : Faults) : Store × Bool :=
  if u.status ≠ "" then st.updateCheckRunStatus u u.status f
  else if u.final then st.updateCheckRunStatus u "errored" f
  else (st, true)

variable (secrets : RunID → List String)

/-- `runSecretMasker`, applied: nothing is masked when the secrets cannot be read. `secrets` are the
values that apply at the folder of the run's check. -/
def Update.masked (u : Update) (f : Faults) : Update :=
  if f.readSecrets then u
  else { u with
    logChunk := (SecretMask.new (secrets u.runId)).mask u.logChunk
    summary := (SecretMask.new (secrets u.runId)).mask u.summary }

/-- `handleCheckRunUpdate`: the store after the update, and whether it was acknowledged. The run id
is looked up as it is given; the store of the source trims it first. -/
def handleCheckRunUpdate (daemon : String) (st : Store) (update : Update) (f : Faults) :
    Store × Bool :=
  if f.getRun then (st, false)
  else
    match st.runs.get update.runId with
    | .none => (st, true)
    | some run =>
      if run.daemon ≠ daemon then (st, true)
      else
        let u := update.masked secrets f
        if u.logChunk ≠ "" ∧ 0 < u.clientSeq then
          if f.appendLog then (st, false) else (st.appendCheckRunLog u).reportStatus u f
        else st.reportStatus u f

/-- The rows of a run's log. -/
def rowsOf (logs : Table (RunID × Int) LogRow) (id : RunID) : List ((RunID × Int) × LogRow) :=
  logs.rows.filter fun r => r.1.1 = id

/-- The chunks of a run's log, in the order of their sequence numbers (`ListCheckRunLogs`). -/
def chunks (logs : Table (RunID × Int) LogRow) (id : RunID) : List String :=
  ((rowsOf logs id).insertionSort fun r r' => r.1.2 ≤ r'.1.2).map fun r => r.2.chunk

/-- A message of a daemon, and what the store does with it. -/
structure Event where
  daemon : String
  update : Update
  /-- The calls that fail. -/
  faults : Faults

/-- The store after a message. -/
def step (st : Store) (e : Event) : Store :=
  (handleCheckRunUpdate secrets e.daemon st e.update e.faults).1

/-- The store after messages about some runs. -/
def after (runs : Table RunID Run) (events : List Event) : Store :=
  Machine.run (step secrets) ⟨runs, .empty⟩ events

/-! ## The chunks as they were sent -/

/-- The message is one whose chunk is stored, if its sequence number is free. -/
def Event.appends (runs : Table RunID Run) (e : Event) : Bool :=
  !e.faults.getRun && (runs.get e.update.runId).any (fun run => run.daemon = e.daemon) &&
    e.update.logChunk ≠ "" && 0 < e.update.clientSeq && !e.faults.appendLog

/-- The chunks that were sent for the sequence numbers of a log, before they were masked. -/
def sent (runs : Table RunID Run) (events : List Event) : Table (RunID × Int) LogRow :=
  events.foldl (fun t e =>
    if e.appends runs then
      t.insertNew (e.update.runId, e.update.clientSeq) ⟨defaultCheckStream e.update.stream,
        e.update.logChunk⟩
    else t) .empty

/-- When the secrets of a run can be masked: they are read for each of its updates; no value has an
asterisk in it or ends in a carriage return; the chunks of its log cut no value; and in no text does
a masked value reach from inside another one to behind it. -/
structure Maskable (runs : Table RunID Run) (id : RunID) (events : List Event) : Prop where
  reads : ∀ e ∈ events, e.update.runId = id → e.faults.readSecrets = false
  stars : ∀ v ∈ secrets id, '*' ∉ v.toList
  returns : ∀ v ∈ secrets id, SecretMask.trimReturns v = v
  uncut : ∀ v ∈ secrets id, SecretMask.isCovered v = true →
    ¬ Redact.Cut v.toList ((chunks (sent runs events) id).map String.toList)
  nested : ∀ e ∈ events, e.update.runId = id → ∀ text ∈ [e.update.logChunk, e.update.summary],
    ¬ Redact.Straddled ((SecretMask.new (secrets id)).map String.toList) text.toList

/-! ## One message -/

section Step

variable (st : Store) (u : Update)

/-- A row of `check_runs` is kept, or it is that of an update's run: it keeps its daemon, and its
summary or has the update's. -/
def RunReported (st st' : Store) (u : Update) (id : RunID) : Prop :=
  st'.runs.get id = st.runs.get id ∨
    ∃ run run', id = u.runId ∧ st.runs.get id = some run ∧ st'.runs.get id = some run' ∧
      run'.daemon = run.daemon ∧
      (run'.row.summary = run.row.summary ∨ run'.row.summary = trimSpace u.summary)

theorem updateCheckRunStatus_spec (status : String) (f : Faults) :
    (st.updateCheckRunStatus u status f).1.logs = st.logs ∧
      ∀ id, RunReported st (st.updateCheckRunStatus u status f).1 u id := by
  rw [Store.updateCheckRunStatus]
  split
  · exact ⟨rfl, fun _ => .inl rfl⟩
  · rename_i s hs
    split_ifs with hfault
    · exact ⟨rfl, fun _ => .inl rfl⟩
    · split
      · exact ⟨rfl, fun _ => .inl rfl⟩
      · rename_i run hrun
        split_ifs with haccepts
        · refine ⟨rfl, fun id => ?_⟩
          by_cases hid : id = u.runId
          · refine .inr ⟨run, run.withStatus s u, hid, hid ▸ hrun,
              by rw [hid, Table.get_set_self], rfl, ?_⟩
            simp only [Run.withStatus, RunRow.withStatus]
            split_ifs
            · exact .inr rfl
            · exact .inl rfl
          · exact .inl (Table.get_set_of_ne _ _ hid)
        · exact ⟨rfl, fun _ => .inl rfl⟩

theorem reportStatus_spec (f : Faults) :
    (st.reportStatus u f).1.logs = st.logs ∧ ∀ id, RunReported st (st.reportStatus u f).1 u id := by
  rw [Store.reportStatus]
  split_ifs
  · exact updateCheckRunStatus_spec st u _ f
  · exact updateCheckRunStatus_spec st u _ f
  · exact ⟨rfl, fun _ => .inl rfl⟩

theorem key_masked (f : Faults) : (u.masked secrets f).runId = u.runId ∧
    (u.masked secrets f).clientSeq = u.clientSeq := by
  rw [Update.masked]
  split_ifs <;> exact ⟨rfl, rfl⟩

theorem logChunk_masked (f : Faults) : (u.masked secrets f).logChunk = "" ↔ u.logChunk = "" := by
  rw [Update.masked]
  split_ifs
  · rfl
  · exact SecretMask.mask_eq_empty

/-- What a message does: nothing, or it reports on a run of its daemon, after it appended its chunk
if it has one. -/
theorem step_cases (e : Event) :
    (step secrets st e = st ∧ e.appends st.runs = false) ∨
      ∃ run st', st.runs.get e.update.runId = some run ∧ run.daemon = e.daemon ∧
        step secrets st e = (st'.reportStatus (e.update.masked secrets e.faults) e.faults).1 ∧
        st' = if e.appends st.runs then st.appendCheckRunLog (e.update.masked secrets e.faults) else st := by
  rw [step, handleCheckRunUpdate]
  by_cases hget : e.faults.getRun = true
  · rw [if_pos hget]
    exact .inl ⟨rfl, by simp [Event.appends, hget]⟩
  rw [if_neg hget]
  cases hrun : st.runs.get e.update.runId with
  | none => exact .inl ⟨rfl, by simp [Event.appends, hrun]⟩
  | some run =>
    by_cases hdaemon : run.daemon = e.daemon
    · simp only [ne_eq, hdaemon, logChunk_masked secrets e.update,
        (key_masked secrets e.update e.faults).2]
      by_cases hchunk : ¬ e.update.logChunk = "" ∧ 0 < e.update.clientSeq
      · rw [if_pos hchunk]
        by_cases hfault : e.faults.appendLog = true
        · rw [if_pos hfault]
          exact .inl ⟨rfl, by simp [Event.appends, hfault]⟩
        · rw [if_neg hfault]
          have happends : e.appends st.runs = true := by
            simp [Event.appends, hget, hrun, hdaemon, hchunk, hfault]
          exact .inr ⟨run, _, rfl, hdaemon, rfl, by rw [if_pos happends]⟩
      · rw [if_neg hchunk]
        have happends : e.appends st.runs = false := by
          simp only [Event.appends]
          simp only [not_and] at hchunk
          by_cases hempty : e.update.logChunk = ""
          · simp [hempty]
          · simp [hchunk hempty]
        exact .inr ⟨run, _, rfl, hdaemon, rfl, by simp [happends]⟩
    · exact .inl ⟨by simp [hdaemon], by simp [Event.appends, hrun, hdaemon]⟩

theorem step_runs (e : Event) (id : RunID) :
    RunReported st (step secrets st e) (e.update.masked secrets e.faults) id := by
  rcases step_cases secrets st e with ⟨hsame, -⟩ | ⟨run, st', -, -, hstep, hst'⟩
  · exact .inl (by rw [hsame])
  · have hruns : st'.runs = st.runs := by
      rw [hst']
      split_ifs <;> rfl
    rw [RunReported, hstep, ← hruns]
    exact (reportStatus_spec st' _ e.faults).2 id

end Step

/-! ## All messages -/

section Runs

variable {runs : Table RunID Run} {events : List Event} {id : RunID}

theorem sent_append (events : List Event) (e : Event) : sent runs (events ++ [e]) =
    if e.appends runs then (sent runs events).insertNew (e.update.runId, e.update.clientSeq)
      ⟨defaultCheckStream e.update.stream, e.update.logChunk⟩ else sent runs events := by
  rw [sent, foldl_append]
  rfl

theorem after_append (events : List Event) (e : Event) :
    after secrets runs (events ++ [e]) = step secrets (after secrets runs events) e := by
  rw [after, Machine.run_append]
  rfl

theorem daemon_after (runs : Table RunID Run) (events : List Event) (id : RunID) :
    ((after secrets runs events).runs.get id).map Run.daemon = (runs.get id).map Run.daemon := by
  induction events using List.reverseRecOn with
  | nil => rfl
  | append_singleton events e ih =>
    rw [after_append, ← ih]
    rcases step_runs secrets (after secrets runs events) e id with heq | ⟨r, r', -, hr, hr', hd, -⟩
    · rw [heq]
    · rw [hr', hr, Option.map_some, Option.map_some, hd]

theorem appends_after (runs : Table RunID Run) (events : List Event) (e : Event) :
    e.appends (after secrets runs events).runs = e.appends runs := by
  have hdaemon := daemon_after secrets runs events e.update.runId
  have hany : ∀ o o' : Option Run, o.map Run.daemon = o'.map Run.daemon →
      (o.any fun run => run.daemon = e.daemon) = o'.any fun run => run.daemon = e.daemon := by
    intro o o' h
    cases o <;> cases o' <;> simp_all
  simp only [Event.appends, hany _ _ hdaemon]

/-- A row of the log with its chunk masked. -/
def maskRow (values : List String) (r : (RunID × Int) × LogRow) : (RunID × Int) × LogRow :=
  (r.1, { r.2 with chunk := (SecretMask.new values).mask r.2.chunk })

theorem rowsOf_insertNew (t : Table (RunID × Int) LogRow) (k : RunID × Int) (r : LogRow)
    (id : RunID) :
    rowsOf (t.insertNew k r) id =
      if k.1 = id ∧ k ∉ (rowsOf t id).map Prod.fst then rowsOf t id ++ [(k, r)] else rowsOf t id := by
  have hmem : k.1 = id → (k ∈ (rowsOf t id).map Prod.fst ↔ k ∈ t.rows.map Prod.fst) := by
    rintro rfl
    simp [rowsOf]
  rw [rowsOf, Table.rows_insertNew]
  by_cases hid : k.1 = id
  · simp only [hid, hmem hid, true_and]
    by_cases hk : k ∈ t.rows.map Prod.fst
    · rw [if_pos hk, if_neg (not_not.mpr hk)]
      rfl
    · rw [if_neg hk, if_pos hk]
      simp [rowsOf, hid]
  · have hother : ¬ (k.1 = id ∧ k ∉ (rowsOf t id).map Prod.fst) := fun h => hid h.1
    split_ifs
    · rfl
    · rw [filter_append]
      simp [rowsOf, hid]

theorem masked_of_reads {u : Update} {f : Faults} (h : f.readSecrets = false) : u.masked secrets f =
    { u with
      logChunk := (SecretMask.new (secrets u.runId)).mask u.logChunk
      summary := (SecretMask.new (secrets u.runId)).mask u.summary } := by
  rw [Update.masked, h, if_neg Bool.false_ne_true]

section

variable (hreads : ∀ e ∈ events, e.update.runId = id → e.faults.readSecrets = false)
include hreads

theorem rowsOf_after :
    rowsOf (after secrets runs events).logs id =
      (rowsOf (sent runs events) id).map (maskRow (secrets id)) := by
  induction events using List.reverseRecOn with
  | nil => rfl
  | append_singleton events e ih =>
    rw [forall_mem_append] at hreads
    have ih := ih hreads.1
    have hread := hreads.2 e mem_cons_self
    rw [after_append, sent_append, ← appends_after secrets runs events e]
    rcases step_cases secrets (after secrets runs events) e with ⟨hsame, hnot⟩ | ⟨run, st', -, -, hstep, hst'⟩
    · rw [hsame, hnot]
      exact ih
    · rw [hstep, (reportStatus_spec st' _ e.faults).1, hst']
      split_ifs with happends
      · -- the chunk is appended on both sides, or its number is taken on both
        obtain ⟨hrunId, hseq⟩ := key_masked secrets e.update e.faults
        rw [Store.appendCheckRunLog, rowsOf_insertNew, rowsOf_insertNew, hrunId, hseq, ih]
        have hkeys : ((rowsOf (sent runs events) id).map (maskRow (secrets id))).map Prod.fst =
            (rowsOf (sent runs events) id).map Prod.fst := by
          rw [map_map]
          rfl
        rw [hkeys]
        split_ifs with hnew
        · rw [map_append, map_singleton, masked_of_reads secrets (hread hnew.1)]
          have hid : e.update.runId = id := hnew.1
          simp only [maskRow, hid]
        · rfl
      · exact ih

theorem chunks_after :
    chunks (after secrets runs events).logs id =
      (chunks (sent runs events) id).map (SecretMask.new (secrets id)).mask := by
  have hsort := map_insertionSort (fun r r' : (RunID × Int) × LogRow => r.1.2 ≤ r'.1.2)
    (fun r r' : (RunID × Int) × LogRow => r.1.2 ≤ r'.1.2) (maskRow (secrets id))
    (rowsOf (sent runs events) id) fun _ _ _ _ => Iff.rfl
  rw [chunks, rowsOf_after secrets hreads, ← hsort, chunks, map_map, map_map]
  rfl

theorem summary_after {run : Run} (hrun : (after secrets runs events).runs.get id = some run) :
    (∃ run₀, runs.get id = some run₀ ∧ run.row.summary = run₀.row.summary) ∨
      ∃ text, run.row.summary = trimSpace ((SecretMask.new (secrets id)).mask text) := by
  induction events using List.reverseRecOn generalizing run with
  | nil => exact .inl ⟨run, hrun, rfl⟩
  | append_singleton events e ih =>
    rw [forall_mem_append] at hreads
    have ih := @ih hreads.1
    have hread := hreads.2 e mem_cons_self
    rw [after_append] at hrun
    rcases step_runs secrets (after secrets runs events) e id with
      heq | ⟨r, r', hid, hr, hr', -, hsummary⟩
    · rw [heq] at hrun
      exact ih hrun
    · rw [hr', Option.some.injEq] at hrun
      subst hrun
      rcases hsummary with hkept | hnew
      · rw [hkept]
        exact ih hr
      · have hrunId : e.update.runId = id := by rw [hid, (key_masked secrets _ _).1]
        refine .inr ⟨e.update.summary, ?_⟩
        rw [hnew, masked_of_reads secrets (hread hrunId), ← hrunId]

end

/-- A run `r` of daemon `d`. -/
def oneRun : Table RunID Run :=
  Table.empty.set "r" ⟨⟨"r", ⟨"c", "p", "ci"⟩, 1, none, .running, none, ""⟩, "d"⟩

/-- A message of daemon `d` with a chunk of the log of run `r`. -/
def chunkEvent (seq : Int) (chunk : String) (f : Faults) : Event :=
  ⟨"d", ⟨"r", seq, "", "stdout", chunk, 0, "", false⟩, f⟩

/-- **No secret shows in a check's reports** when they can be masked. -/
theorem reports_masked (hsummary : ∀ run, runs.get id = some run → run.row.summary = "")
    (hmaskable : Maskable secrets runs id events) {v : String} (hv : v ∈ secrets id)
    (hcovered : SecretMask.isCovered v = true) :
    ¬ v.toList <:+: ((chunks (after secrets runs events).logs id).map String.toList).flatten ∧
      (∀ run, (after secrets runs events).runs.get id = some run →
        ¬ v.toList <:+: run.row.summary.toList) ∧
      ∀ e ∈ events, e.update.runId = id → ∀ text ∈ [e.update.logChunk, e.update.summary], ∀ l r,
        text.toList = l ++ v.toList ++ r → ∀ k < v.toList.length,
          (SecretMask.stored (secrets id) text)[l.length + k]? = some false := by
  have hreturns := hmaskable.returns v hv
  have hnew : v ∈ SecretMask.new (secrets id) := by
    have := SecretMask.trimReturns_mem_new hv hcovered
    rwa [hreturns] at this
  refine ⟨?_, fun run hrun hshown => ?_, fun e he hid text htext l r heq k hk => ?_⟩
  · rw [chunks_after secrets hmaskable.reads, map_map]
    refine SecretMask.not_infix_mask hv hcovered (hmaskable.stars v hv) ?_
    rw [hreturns]
    exact hmaskable.uncut v hv hcovered
  · rcases summary_after secrets hmaskable.reads hrun with ⟨run₀, hrun₀, hkept⟩ | ⟨text, htext⟩
    · rw [hkept, hsummary run₀ hrun₀] at hshown
      exact SecretMask.ne_empty_of_mem_new hnew (infix_nil.mp hshown)
    · rw [htext] at hshown
      exact SecretMask.not_infix_mask_single hv hcovered (hmaskable.stars v hv) text
        (hshown.trans (isInfix_trimSpace _))
  · have hnested := hmaskable.nested e he hid text htext
    rw [heq] at hnested
    rw [SecretMask.stored, heq]
    exact Redact.hidden_of_occurrence (SecretMask.values_ne_nil _) (SecretMask.longestFirst_new _)
      (mem_map_of_mem hnew) hnested hk

/-- A secret that a chunk holds and the final summary too. -/
theorem reports_masked_single :
    ¬ "secret".toList <:+: ((chunks (after (fun _ => ["secret"]) oneRun
      [chunkEvent 1 "a secret\n" .none,
        ⟨"d", ⟨"r", 2, "failed", "", "", 1, "saw secret", true⟩, .none⟩]).logs "r").map String.toList).flatten := by
  have hborder : ∀ y ∈ "secret".toList.inits, y <:+ "secret".toList →
      y = [] ∨ y = "secret".toList := by
    decide +kernel
  refine (reports_masked (fun _ => ["secret"]) (by decide +kernel) ⟨by decide +kernel, by decide +kernel,
    by decide +kernel, ?_, ?_⟩ mem_cons_self (by decide +kernel)).1
  · intro v hv _
    exact Redact.not_cut_single _ _
  · intro e _ _ text _
    exact Redact.not_straddled_single
      (fun y hsuffix hpre => hborder y (mem_inits y _ |>.mpr hpre) hsuffix) _

/-- Secrets that are stored: one that two chunks cut, the end of one that begins inside another one,
and one of an update for which the secrets could not be read. -/
theorem reports_show_secrets :
    chunks (after (fun _ => ["secret"]) oneRun [chunkEvent 1 "sec" .none, chunkEvent 2 "ret" .none]).logs "r" =
        ["sec", "ret"] ∧
      chunks (after (fun _ => ["abcd", "cdef"]) oneRun [chunkEvent 1 "abcdef" .none]).logs "r" = ["***ef"] ∧
      chunks (after (fun _ => ["secret"]) oneRun
        [chunkEvent 1 "secret" { Faults.none with readSecrets := true }]).logs "r" =
          ["secret"] := by
  decide +kernel

end Runs

end CheckReports

end GitSlice
