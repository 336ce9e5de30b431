import GitSlice.Cli.CheckOutbox

/-! # Delivery of check reports
The two sides of the delivery by themselves: what the server has after it handled an update
(`Outcome`), why what it stored stays stored, and what the loops over an outbox do. -/

namespace GitSlice

open List Table

namespace CheckOutbox

open CheckReports (Update Store Faults handleCheckRunUpdate Run)

variable {secrets : RunID → List String} {daemon : String}

/-! ## The server and one update -/

section Server

variable {server : Store} {u : Update} {f : Faults}

/-- The update of a report. -/
def IsReport (u : Update) : Prop :=
  0 < u.clientSeq ∧ ∃ r : Report, r ≠ .log "" ∧ u = r.update u.runId u.clientSeq

/-- What the server does with the update of a report on a run of the daemon. -/
inductive Outcome (secrets : RunID → List String) (server : Store) (u : Update) (f : Faults) : Store × Bool → Prop
  /-- A store call fails. -/
  | failed (h : fails f = true) : Outcome secrets server u f (server, false)
  /-- The chunk is stored if its number is free. -/
  | logged (row : CheckReports.LogRow) (hstatus : ∀ s, ¬ Reports u s)
      (hrow : row.chunk = u.logChunk ∨
        row.chunk = (SecretMask.new (secrets u.runId)).mask u.logChunk) :
      Outcome secrets server u f
        ({ server with logs := server.logs.insertNew (u.runId, u.clientSeq) row }, true)
  /-- The status is written. -/
  | accepted (run run' : Run) (s : RunStatus) (hrun : server.runs.get u.runId = some run)
      (hchunk : u.logChunk = "") (hs : Reports u s) (hopen : run.row.status.isTerminal = false)
      (hstatus : run'.row.status = s) (hdaemon : run'.daemon = run.daemon)
      (hsuperseded : run'.row.supersededBy = run.row.supersededBy) (acked : Bool) :
      Outcome secrets server u f ({ server with runs := server.runs.set u.runId run' }, acked)
  /-- The run has ended. -/
  | refused (run : Run) (hrun : server.runs.get u.runId = some run) (hchunk : u.logChunk = "")
      (hended : run.row.status.isTerminal = true) : Outcome secrets server u f (server, true)

variable {s : RunStatus}
theorem reports_statusText (h : u.status = statusText s) (s' : RunStatus) :
    Reports u s' ↔ s' = s := by
  rw [Reports, h]
  cases s <;> cases s' <;> decide +kernel

theorem masked_fields (secrets : RunID → List String) (u : Update) (f : Faults) :
    (u.masked secrets f).runId = u.runId ∧
    (u.masked secrets f).clientSeq = u.clientSeq ∧ (u.masked secrets f).status = u.status ∧
    (u.masked secrets f).final = u.final ∧
    ((u.masked secrets f).logChunk = u.logChunk ∨
      (u.masked secrets f).logChunk = (SecretMask.new (secrets u.runId)).mask u.logChunk) := by
  rw [Update.masked]
  split_ifs
  · exact ⟨rfl, rfl, rfl, rfl, .inl rfl⟩
  · exact ⟨rfl, rfl, rfl, rfl, .inr rfl⟩

section

variable {run : Run} (hrun : server.runs.get u.runId = some run) (hdaemon : run.daemon = daemon)
include hrun hdaemon

theorem outcome_status (hsuperseded : run.row.supersededBy = none) (hchunk : u.logChunk = "")
    (hs : u.status = statusText s) :
    Outcome secrets server u f (handleCheckRunUpdate secrets daemon server u f) := by
  obtain ⟨hid, -, hstatus, -, -⟩ := masked_fields secrets u f
  have hempty : (u.masked secrets f).logChunk = "" :=
    (CheckReports.logChunk_masked secrets u f).mpr hchunk
  have htext : statusText s ≠ "" := by cases s <;> decide
  have hnormal : normalizeCheckRunStatus (statusText s) = some s := by cases s <;> decide +kernel
  rw [handleCheckRunUpdate]
  by_cases hget : f.getRun = true
  · rw [if_pos hget]
    exact .failed (by simp [fails, hget])
  · simp only [hget, Bool.false_eq_true, if_false, hrun, hdaemon, ne_eq, not_true_eq_false, hempty,
      false_and, Store.reportStatus, hstatus, hs, htext, not_false_eq_true, if_true,
      Store.updateCheckRunStatus, hnormal, hid]
    by_cases hfault : f.updateStatus = true
    · simp only [hfault]
      exact .failed (by simp [fails, hfault])
    · simp only [hfault]
      by_cases haccepts : run.row.accepts s = true
      · simp only [haccepts]
        refine .accepted run (run.withStatus s (u.masked secrets f)) s hrun hchunk
          ((reports_statusText hs s).mpr rfl) ?_ rfl rfl rfl _
        simp only [RunRow.accepts, decide_eq_true_eq] at haccepts
        exact haccepts.1
      · simp only [haccepts]
        refine .refused run hrun hchunk ?_
        simpa [RunRow.accepts, hsuperseded] using haccepts

theorem outcome_log (hchunk : u.logChunk ≠ "") (hpos : 0 < u.clientSeq) (hstatus : u.status = "")
    (hfinal : u.final = false) :
    Outcome secrets server u f (handleCheckRunUpdate secrets daemon server u f) := by
  obtain ⟨hid, hseq, hstatus', hfinal', hlog⟩ := masked_fields secrets u f
  have hshown : (u.masked secrets f).logChunk ≠ "" :=
    (CheckReports.logChunk_masked secrets u f).not.mpr hchunk
  rw [handleCheckRunUpdate]
  by_cases hget : f.getRun = true
  · rw [if_pos hget]
    exact .failed (by simp [fails, hget])
  · simp only [hget, Bool.false_eq_true, if_false, hrun, hdaemon, ne_eq, not_true_eq_false, hshown,
      not_false_eq_true, hseq, hpos, and_self, if_true]
    by_cases hfault : f.appendLog = true
    · simp only [hfault]
      exact .failed (by simp [fails, hfault])
    · simp only [hfault, Bool.false_eq_true, if_false, Store.reportStatus, hstatus', hstatus, ne_eq,
        not_true_eq_false, hfinal', hfinal, Store.appendCheckRunLog, hid, hseq]
      exact .logged _ (fun s hs => hs.1 hstatus) hlog

theorem outcome_of_isReport (hu : IsReport u) (hsuperseded : run.row.supersededBy = none) :
    Outcome secrets server u f (handleCheckRunUpdate secrets daemon server u f) := by
  obtain ⟨hpos, r, hr, heq⟩ := hu
  cases r with
  | running => exact outcome_status (s := .running) hrun hdaemon hsuperseded (by rw [heq]; rfl) (by rw [heq]; rfl)
  | log =>
    refine outcome_log hrun hdaemon ?_ hpos (by rw [heq]; rfl) (by rw [heq]; rfl)
    rw [heq]
    rintro rfl
    exact hr rfl
  | final =>
    exact outcome_status hrun hdaemon hsuperseded (by rw [heq]; rfl) (by rw [heq]; rfl)

end

theorem final_of_terminal (hu : IsReport u) (hs : Reports u s) (hterminal : s.isTerminal = true) :
    u.final = true := by
  obtain ⟨-, r, -, heq⟩ := hu
  cases r with
  | final => rw [heq]; rfl
  | running =>
    have := (reports_statusText (s := .running) (by rw [heq]; rfl) s).mp hs
    subst this
    cases hterminal
  | log =>
    have hempty : u.status = "" := by rw [heq]; rfl
    exact absurd hempty hs.1

end Server

/-! ## The server and all updates -/

/-- The updates of a daemon: the sequence numbers of a run tell them apart, and a run has one final
one. -/
structure WellEmitted (emitted : List Update) : Prop where
  reports : ∀ u ∈ emitted, IsReport u
  distinct : ∀ u ∈ emitted, ∀ u' ∈ emitted, u.runId = u'.runId → u.clientSeq = u'.clientSeq → u = u'
  final : ∀ u ∈ emitted, ∀ u' ∈ emitted, u.runId = u'.runId → u.final = true →
    u'.final = true → u = u'

/-- The chunk of a row is the one of an update. -/
def ChunkOf (secrets : RunID → List String) (u : Update) (row : CheckReports.LogRow) : Prop :=
  row.chunk = u.logChunk ∨ row.chunk = (SecretMask.new (secrets u.runId)).mask u.logChunk

/-- What the server has about a run comes from the updates that were emitted. -/
structure Holds (secrets : RunID → List String) (daemon : String) (emitted : List Update) (server : Store)
    (id : RunID) : Prop where
  run : ∃ run, server.runs.get id = some run ∧ run.daemon = daemon ∧ run.row.supersededBy = none ∧
    (run.row.status.isTerminal = true →
      ∃ u ∈ emitted, u.runId = id ∧ u.final = true ∧ Reports u run.row.status)
  logs : ∀ seq row, server.logs.get (id, seq) = some row →
    ∃ u ∈ emitted, u.runId = id ∧ u.clientSeq = seq ∧ ChunkOf secrets u row

section Store

variable {server : Store} {emitted : List Update} {u u' : Update} {f : Faults} {id : RunID}

theorem Holds.mono (h : Holds secrets daemon emitted server id) {emitted' : List Update}
    (hsub : ∀ u ∈ emitted, u ∈ emitted') : Holds secrets daemon emitted' server id := by
  obtain ⟨⟨run, hrun, hdaemon, hsuperseded, hterminal⟩, hlogs⟩ := h
  refine ⟨⟨run, hrun, hdaemon, hsuperseded, fun ht => ?_⟩, fun seq row hrow => ?_⟩
  · obtain ⟨u, hu, hrest⟩ := hterminal ht
    exact ⟨u, hsub u hu, hrest⟩
  · obtain ⟨u, hu, hrest⟩ := hlogs seq row hrow
    exact ⟨u, hsub u hu, hrest⟩

theorem running_or_terminal (hu : IsReport u) (hs : Reports u s) :
    s = .running ∨ s.isTerminal = true := by
  obtain ⟨-, r, -, heq⟩ := hu
  cases r with
  | running => exact .inl ((reports_statusText (by rw [heq]; rfl) s).mp hs)
  | log =>
    have hempty : u.status = "" := by rw [heq]; rfl
    exact absurd hempty hs.1
  | final status =>
    have := (reports_statusText (by rw [heq]; rfl) s).mp hs
    exact .inr (this ▸ status.2)

theorem reports_unique {s' : RunStatus} (h : Reports u s) (h' : Reports u s') : s = s' :=
  Option.some.inj (h.2.symm.trans h'.2)

section

variable (hwell : WellEmitted emitted)
include hwell

section

variable (hu : u ∈ emitted) (hown : Holds secrets daemon emitted server u.runId)
include hu hown

theorem outcome_of_holds :
    Outcome secrets server u f (handleCheckRunUpdate secrets daemon server u f) := by
  obtain ⟨run, hrun, hdaemon, hsuperseded, -⟩ := hown.run
  exact outcome_of_isReport hrun hdaemon (hwell.reports u hu) hsuperseded

theorem holds_handle (h : Holds secrets daemon emitted server id) :
    Holds secrets daemon emitted (handleCheckRunUpdate secrets daemon server u f).1 id := by
  have hout := outcome_of_holds (f := f) hwell hu hown
  generalize handleCheckRunUpdate secrets daemon server u f = handled at hout
  cases hout with
  | failed | refused => exact h
  | logged row _ hrow =>
    refine ⟨h.run, fun seq row' hget => ?_⟩
    rcases get_insertNew_cases hget with ⟨hkey, rfl⟩ | hget
    · obtain ⟨rfl, rfl⟩ := Prod.mk.inj hkey
      exact ⟨u, hu, rfl, rfl, hrow⟩
    · exact h.logs seq row' hget
  | accepted run run' s hrun _ hs _ hstatus hdaemon hsuperseded =>
    obtain ⟨run₀, hrun₀, hrest⟩ := h.run
    refine ⟨exists_get_set hrun₀ hrest ?_, h.logs⟩
    rintro rfl hget
    rw [hrun] at hget
    cases hget
    refine ⟨hdaemon.trans hrest.1, hsuperseded.trans hrest.2.1, fun ht => ?_⟩
    rw [hstatus] at ht ⊢
    exact ⟨u, hu, rfl, final_of_terminal (hwell.reports u hu) hs ht, hs⟩

theorem stored_handle (hu' : u' ∈ emitted) (h : Stored secrets server u') :
    Stored secrets (handleCheckRunUpdate secrets daemon server u f).1 u' := by
  have hout := outcome_of_holds (f := f) hwell hu hown
  generalize handleCheckRunUpdate secrets daemon server u f = handled at hout
  cases hout with
  | failed | refused => exact h
  | logged row _ _ =>
    refine ⟨fun hchunk => ?_, h.2⟩
    obtain ⟨old, hold, hmatch⟩ := h.1 hchunk
    exact ⟨old, extends_insertNew _ _ _ _ _ hold, hmatch⟩
  | accepted run run' s hrun _ hs hopen hstatus _ _ =>
    refine ⟨h.1, fun s' hs' => ?_⟩
    obtain ⟨old, hold, hcase⟩ := h.2 s' hs'
    refine exists_get_set hold hcase fun _ hget => ?_
    rw [hrun, Option.some.injEq] at hget
    subst hget
    -- the run was open, so the stored status was `running`
    have hrunning : s' = .running := by
      rcases running_or_terminal (hwell.reports u' hu') hs' with h | h
      · exact h
      · rcases hcase with heq | ⟨hnot, -⟩
        · rw [heq, h] at hopen
          cases hopen
        · rw [h] at hnot
          cases hnot
    rcases running_or_terminal (hwell.reports u hu) hs with h | h
    · exact .inl (by rw [hstatus, h, hrunning])
    · exact .inr ⟨by rw [hrunning]; rfl, by rw [hstatus]; exact h⟩

theorem stored_of_handle
    (h : (handleCheckRunUpdate secrets daemon server u f).2 = true ∨ fails f = false) :
    Stored secrets (handleCheckRunUpdate secrets daemon server u f).1 u := by
  have hout := outcome_of_holds (f := f) hwell hu hown
  generalize handleCheckRunUpdate secrets daemon server u f = handled at hout h
  cases hout with
  | failed hfails =>
    rcases h with h | h
    · cases h
    · rw [hfails] at h
      cases h
  | logged row hstatus hrow =>
    refine ⟨fun hchunk => ?_, fun s hs => absurd hs (hstatus s)⟩
    rw [get_insertNew, if_pos rfl]
    cases hold : server.logs.get (u.runId, u.clientSeq) with
    | none => exact ⟨row, rfl, hrow⟩
    | some old =>
      -- the number is taken by the same update
      obtain ⟨u'', hu'', hid, hseq, hmatch⟩ := hown.logs _ _ hold
      have := hwell.distinct u'' hu'' u hu hid hseq
      subst this
      exact ⟨old, rfl, hmatch⟩
  | accepted run run' s hrun hchunk hs _ hstatus =>
    refine ⟨absurd hchunk, fun s' hs' => ⟨run', by rw [get_set_self], .inl ?_⟩⟩
    rw [hstatus, reports_unique hs hs']
  | refused run hrun hchunk hended =>
    refine ⟨absurd hchunk, fun s' hs' => ⟨run, hrun, ?_⟩⟩
    obtain ⟨run₀, hrun₀, -, -, hfinal⟩ := hown.run
    rw [hrun, Option.some.injEq] at hrun₀
    subst hrun₀
    cases hterminal : s'.isTerminal with
    | false => exact .inr ⟨rfl, hended⟩
    | true =>
      -- the final update of the run is this one
      obtain ⟨u'', hu'', hid, hf, hs''⟩ := hfinal hended
      have := hwell.final u'' hu'' u hu hid hf (final_of_terminal (hwell.reports u hu) hs' hterminal)
      subst this
      exact .inl (reports_unique hs'' hs')

end

end

end Store

/-! ## The outbox -/

section Outbox

variable {pending : List Update}

theorem flushLoop_fst {n : Int}
    (hsorted : pending.Pairwise fun u u' => u.clientSeq < u'.clientSeq) :
    (flushLoop n pending).1 = pending.filter fun u => n < u.clientSeq := by
  induction pending generalizing n with
  | nil => rfl
  | cons u us ih =>
    obtain ⟨hhead, htail⟩ := pairwise_cons.mp hsorted
    rw [flushLoop]
    split_ifs with hle
    · rw [ih htail, filter_cons_of_neg (by simpa using hle)]
    · rw [filter_cons_of_pos (by simpa using hle)]
      simp only [ih htail, List.cons.injEq, true_and]
      refine filter_congr fun u' hu' => ?_
      have := hhead u' hu'
      simp only [decide_eq_decide]
      omega

theorem flushLoop_snd (n : Int) (pending : List Update) :
    n ≤ (flushLoop n pending).2 ∧ (∀ u ∈ pending, u.clientSeq ≤ (flushLoop n pending).2) ∧
      ((flushLoop n pending).2 = n ∨ ∃ u ∈ pending, (flushLoop n pending).2 = u.clientSeq) := by
  induction pending generalizing n with
  | nil => exact ⟨le_rfl, by simp, .inl rfl⟩
  | cons u us ih =>
    rw [flushLoop]
    split_ifs with hle
    · obtain ⟨hmin, hall, hlast⟩ := ih n
      refine ⟨hmin, forall_mem_cons.mpr ⟨hle.trans hmin, hall⟩, ?_⟩
      rcases hlast with h | ⟨u', hu', h⟩
      · exact .inl h
      · exact .inr ⟨u', mem_cons_of_mem u hu', h⟩
    · obtain ⟨hmin, hall, hlast⟩ := ih u.clientSeq
      refine ⟨(not_le.mp hle).le.trans hmin, forall_mem_cons.mpr ⟨hmin, hall⟩, .inr ?_⟩
      rcases hlast with h | ⟨u', hu', h⟩
      · exact ⟨u, mem_cons_self, h⟩
      · exact ⟨u', mem_cons_of_mem u hu', h⟩

theorem dropOverflow_spec (n : Nat) (pending : List Update) :
    (dropOverflow n pending).1.Sublist pending ∧
      (∀ u ∈ (dropOverflow n pending).2, isLogOnly u = true) ∧
      ∀ u ∈ pending, u ∈ (dropOverflow n pending).1 ∨ u ∈ (dropOverflow n pending).2 := by
  induction n generalizing pending with
  | zero => exact ⟨.refl _, by simp [dropOverflow], fun u hu => .inl hu⟩
  | succ n ih =>
    rw [dropOverflow]
    split_ifs with hfull
    · cases hfind : pending.find? isLogOnly with
      | none => exact ⟨.refl _, by simp, fun u hu => .inl hu⟩
      | some u =>
        obtain ⟨hsub, hlog, hall⟩ := ih (pending.erase u)
        refine ⟨hsub.trans erase_sublist, ?_, fun u' hu' => ?_⟩
        · have hu := List.find?_some hfind
          exact forall_mem_cons.mpr ⟨hu, hlog⟩
        · by_cases heq : u' = u
          · exact .inr (heq ▸ mem_cons_self)
          · rcases hall u' ((mem_erase_of_ne heq).mpr hu') with h | h
            · exact .inl h
            · exact .inr (mem_cons_of_mem u h)
    · exact ⟨.refl _, by simp, fun u hu => .inl hu⟩

theorem enforceLimit_of_le {outboxes : Table RunID Outbox} (n : Nat)
    (h : outboxes.rows.length ≤ agentMaxCheckRunOutboxes) : enforceLimit n outboxes = outboxes := by
  cases n with
  | zero => rfl
  | succ n => rw [enforceLimit, if_pos h]

end Outbox

end CheckOutbox

end GitSlice
