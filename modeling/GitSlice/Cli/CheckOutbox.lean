import GitSlice.Checks.Reports

/-! # The outbox of check reports
`internal/cli/agent_checks_outbox.go`: a daemon keeps the updates of each run it executes in an
outbox until the server acknowledges them. On a connection it sends each update once, in the order
of their sequence numbers, and an acknowledgement drops every update up to its number; a new
connection sends what is left again. The server handles the updates of a connection in order and
acknowledges those that it stored or refuses (`handleCheckRunUpdate`).

A state has both sides and what is on the way between them. It also records which updates were
emitted and which of them were dropped because an outbox was full. -/

namespace GitSlice

namespace CheckOutbox

open CheckReports (Update Store Faults handleCheckRunUpdate)

/-- The text of a status. -/
def statusText : RunStatus → String
  | .queued => "queued"
  | .running => "running"
  | .passed => "passed"
  | .failed => "failed"
  | .errored => "errored"
  | .skipped => "skipped"
  | .canceled => "canceled"

/-- What the execution of a run reports. -/
inductive Report
  /-- `emitCheckRunRunning`. -/
  | running
  /-- `emitCheckRunLog`. -/
  | log (chunk : String)
  /-- `emitCheckRunTerminal`. -/
  | final (status : {s : RunStatus // s.isTerminal = true}) (exitCode : Int) (summary : String)
deriving DecidableEq

/-- The update of a report. -/
def Report.update (id : RunID) (seq : Int) : Report → Update
  | .running => ⟨id, seq, "running", "", "", 0, "", false⟩
  | .log chunk => ⟨id, seq, "", "stdout", chunk, 0, "", false⟩
  | .final status exitCode summary => ⟨id, seq, statusText status.1, "", "", exitCode, summary, true⟩

/-- `isLogOnlyCheckRunUpdate`. -/
def isLogOnly (u : Update) : Bool := u.status = "" && !u.final

/-- Of one run. -/
def agentMaxPendingCheckRunUpdates : Nat := 256

/-- Of one agent. -/
def agentMaxCheckRunOutboxes : Nat := 128

/-- `checkRunOutbox`. -/
structure Outbox where
  pending : List Update
  /-- `ackedClientSeq`. -/
  acked : Int
  /-- `flushedSeq`. -/
  flushed : Int
  /-- `flushQueue`, the connection that `flushed` is about. -/
  queue : Option Nat
  terminal : Bool
deriving DecidableEq

/-- An outbox as `ensureCheckRunOutbox` makes it. -/
def Outbox.new : Outbox := ⟨[], 0, 0, none, false⟩

/-- The daemon, the server and what is between them. -/
structure State where
  /-- `checkRunOutboxes`, in the order of `checkRunOutboxOrder`. -/
  outboxes : Table RunID Outbox
  /-- The sequence number that the execution of each run is at. -/
  seqs : Table RunID Int
  /-- The runs whose execution has ended. -/
  ended : List RunID
  /-- The number of the connection. -/
  conn : Nat
  /-- The connection is up. -/
  up : Bool
  /-- What was sent on the connection and the server has not handled. -/
  queue : List Update
  /-- The acknowledgements on the connection that the daemon has not handled. -/
  acks : List (RunID × Int)
  /-- What was sent on earlier connections and the server may still handle. -/
  stale : List Update
  /-- The tables of the server. -/
  server : Store
  /-- The updates that were emitted. -/
  emitted : List Update
  /-- The updates that were dropped on overflow. -/
  dropped : List Update

/-- The last sequence number of a run. -/
def State.seq (st : State) (id : RunID) : Int := (st.seqs.get id).getD 0

/-- A daemon that has not executed a run yet, and is not connected. -/
def initial (server : Store) : State := ⟨.empty, .empty, [], 0, false, [], [], [], server, [], []⟩

/-! ## The daemon -/

/-- `dropOverflowLocked`: the updates that stay and those that are dropped. -/
def dropOverflow : Nat → List Update → List Update × List Update
  | 0, pending => (pending, [])
  | fuel + 1, pending =>
    if agentMaxPendingCheckRunUpdates < pending.length then
      match pending.find? isLogOnly with
      | none => (pending, [])
      | some u =>
        let rest := dropOverflow fuel (pending.erase u)
        (rest.1, u :: rest.2)
    else (pending, [])

/-- The loop of `flushCheckRunPendingLocked`: what is sent, and the number after it. -/
def flushLoop : Int → List Update → List Update × Int
  | flushed, [] => ([], flushed)
  | flushed, u :: us =>
    if u.clientSeq ≤ flushed then flushLoop flushed us
    else
      let rest := flushLoop u.clientSeq us
      (u :: rest.1, rest.2)

/-- The number from which on an outbox is sent on a connection. -/
def Outbox.start (o : Outbox) (conn : Nat) : Int :=
  if o.queue = some conn then o.flushed else o.acked

/-- `flushCheckRunPendingLocked` on a connection that is up: the outbox after it. -/
def Outbox.flush (o : Outbox) (conn : Nat) : Outbox :=
  { o with queue := some conn, flushed := (flushLoop (o.start conn) o.pending).2 }

/-- What `flushCheckRunPendingLocked` sends. -/
def Outbox.fresh (o : Outbox) (conn : Nat) : List Update := (flushLoop (o.start conn) o.pending).1

/-- `flushCheckRunPendingLocked` for the outbox of a run. -/
def State.flush (st : State) (id : RunID) (o : Outbox) : State :=
  if st.up then
    { st with
      outboxes := st.outboxes.set id (o.flush st.conn), queue := st.queue ++ o.fresh st.conn }
  else { st with outboxes := st.outboxes.set id o }

/-- `oldestEvictableCheckRunOutbox`. -/
def oldestEvictable (outboxes : Table RunID Outbox) : Option RunID :=
  match outboxes.rows.find? fun r => r.2.terminal && r.2.pending.isEmpty with
  | some r => some r.1
  | none => (outboxes.rows.find? fun r => r.2.terminal).map Prod.fst

/-- `enforceCheckRunOutboxLimit`. -/
def enforceLimit : Nat → Table RunID Outbox → Table RunID Outbox
  | 0, outboxes => outboxes
  | fuel + 1, outboxes =>
    if outboxes.rows.length ≤ agentMaxCheckRunOutboxes then outboxes
    else
      match oldestEvictable outboxes with
      | none => outboxes
      | some victim => enforceLimit fuel (outboxes.erase victim)

/-- The outbox of a run, which `lockCurrentCheckRunOutboxForSend` makes if there is none. -/
def State.outbox (st : State) (id : RunID) : Outbox := (st.outboxes.get id).getD .new

/-- An outbox with another update in it. -/
def Outbox.push (o : Outbox) (u : Update) : Outbox :=
  { o with
    pending := (dropOverflow (o.pending ++ [u]).length (o.pending ++ [u])).1
    terminal := o.terminal || u.final }

/-- The update of a report, counted and put into the outbox. -/
def State.pushed (st : State) (id : RunID) (r : Report) : State :=
  let u := r.update id (st.seq id + 1)
  let pending := (st.outbox id).pending ++ [u]
  { st with
    seqs := st.seqs.set id (st.seq id + 1)
    ended := if u.final then id :: st.ended else st.ended
    emitted := st.emitted ++ [u]
    dropped := st.dropped ++ (dropOverflow pending.length pending).2 }

/-- `sendCheckRunUpdate` for the next report of a run, before outboxes are evicted. -/
def State.sent (st : State) (id : RunID) (r : Report) : State :=
  (st.pushed id r).flush id ((st.outbox id).push (r.update id (st.seq id + 1)))

/-- A report of the execution of a run. -/
def State.emit (st : State) (id : RunID) (r : Report) : State :=
  if id = "" ∨ r = .log "" ∨ id ∈ st.ended then st
  else
    let st := st.sent id r
    { st with outboxes := enforceLimit st.outboxes.rows.length st.outboxes }

/-- An outbox after an acknowledgement. -/
def Outbox.ack (o : Outbox) (seq : Int) : Outbox :=
  { o with
    acked := max o.acked seq
    pending := o.pending.filter fun u => max o.acked seq < u.clientSeq }

/-- `handleCheckRunAck`: the outbox of a run that has ended is removed when it is empty. -/
def State.handleAck (st : State) (id : RunID) (seq : Int) : State :=
  match st.outboxes.get id with
  | none => st
  | some o =>
    if (o.ack seq).pending = [] ∧ (o.ack seq).terminal = true then { st with outboxes := st.outboxes.erase id }
    else { st with outboxes := st.outboxes.set id (o.ack seq) }

/-! ## Both sides -/

/-- What can happen. -/
inductive Event
  /-- The execution of a run reports. -/
  | emit (id : RunID) (r : Report)
  /-- The daemon connects anew. -/
  | connect
  /-- The connection ends. -/
  | disconnect
  /-- `resendPendingAll` is at the outbox of a run. -/
  | resend (id : RunID)
  /-- The server handles the next update of the connection. -/
  | handle (f : Faults)
  /-- The server handles an update of an earlier connection. -/
  | handleStale (i : Nat) (f : Faults)
  /-- The daemon handles the next acknowledgement. -/
  | ack
deriving DecidableEq

variable (secrets : RunID → List String) (daemon : String)

/-- What is on the way is lost to the daemon when the connection ends. -/
def State.close (st : State) : State :=
  { st with up := false, queue := [], acks := [], stale := st.stale ++ st.queue }

/-- One event. -/
def step (st : State) : Event → State
  | .emit id r => st.emit id r
  | .connect => { st.close with conn := st.conn + 1, up := true }
  | .disconnect => st.close
  | .resend id =>
    match st.outboxes.get id with
    | none => st
    | some o => st.flush id o
  | .handle f =>
    match st.queue with
    | [] => st
    | u :: rest =>
      let handled := handleCheckRunUpdate secrets daemon st.server u f
      { st with
        server := handled.1
        queue := rest
        acks := if handled.2 then st.acks ++ [(u.runId, u.clientSeq)] else st.acks }
  | .handleStale i f =>
    match st.stale[i]? with
    | none => st
    | some u =>
      { st with server := (handleCheckRunUpdate secrets daemon st.server u f).1, stale := st.stale.eraseIdx i }
  | .ack =>
    match st.acks with
    | [] => st
    | (id, seq) :: rest => { st.handleAck id seq with acks := rest }

/-- The state after some events. -/
def after (server : Store) (events : List Event) : State :=
  Machine.run (step secrets daemon) (initial server) events

/-! ## What is kept -/

/-- The update is in its outbox. -/
def State.Pending (st : State) (u : Update) : Prop :=
  ∃ o, st.outboxes.get u.runId = some o ∧ u ∈ o.pending

/-- The status an update reports. -/
def Reports (u : Update) (s : RunStatus) : Prop :=
  u.status ≠ "" ∧ normalizeCheckRunStatus u.status = some s

/-- The server has stored the update: the chunk under its sequence number, masked or as it is, and
the status, unless a final one has followed it. -/
def Stored (server : Store) (u : Update) : Prop :=
  (u.logChunk ≠ "" → ∃ row, server.logs.get (u.runId, u.clientSeq) = some row ∧
    (row.chunk = u.logChunk ∨ row.chunk = (SecretMask.new (secrets u.runId)).mask u.logChunk)) ∧
  ∀ s, Reports u s → ∃ run, server.runs.get u.runId = some run ∧
    (run.row.status = s ∨ (s.isTerminal = false ∧ run.row.status.isTerminal = true))

/-- The server has the run for the daemon: it is open and not superseded, and has no log yet. -/
def Fresh (server : Store) (id : RunID) : Prop :=
  (∃ run, server.runs.get id = some run ∧ run.daemon = daemon ∧ run.row.supersededBy = none ∧
    run.row.status.isTerminal = false) ∧ ∀ seq, server.logs.get (id, seq) = none

/-- A store call fails and the update is not acknowledged. -/
def fails (f : Faults) : Bool := f.getRun || f.appendLog || f.updateStatus

/-- A store call failed on the connection. -/
def failedAfter : Bool → List Event → Bool
  | failed, [] => failed
  | failed, .handle f :: es => failedAfter (failed || fails f) es
  | _, .connect :: es => failedAfter false es
  | failed, _ :: es => failedAfter failed es

/-- When a store call fails, the connection ends before the server handles another update on it. -/
def Careful : Bool → List Event → Bool
  | _, [] => true
  | failed, .handle f :: es => !failed && Careful (fails f) es
  | _, .connect :: es => Careful false es
  | failed, _ :: es => Careful failed es

/-- The event does not take the outboxes over their number. -/
def Roomy (st : State) : Event → Prop
  | .emit id r => (st.sent id r).outboxes.rows.length ≤ agentMaxCheckRunOutboxes
  | _ => True

instance (st : State) : (e : Event) → Decidable (Roomy st e)
  | .emit _ _ => inferInstanceAs (Decidable (_ ≤ _))
  | .connect | .disconnect | .resend _ | .handle _ | .handleStale _ _ | .ack => inferInstanceAs (Decidable True)

/-- What has to happen on a connection for everything to be stored: the outboxes are sent, and the
server handles what was sent. -/
def drain (st : State) : State :=
  let resent := Machine.run (step secrets daemon) st (st.outboxes.rows.map fun r => .resend r.1)
  Machine.run (step secrets daemon) resent (List.replicate resent.queue.length (.handle .none))

end CheckOutbox

end GitSlice
