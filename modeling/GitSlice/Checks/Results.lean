import GitSlice.Checks.Attempts

/-! # The recorded result of a check
The submit gate reads `check_results` only. `check_attempts` says what stands there after any
interleaving of the transactions, and what it does to the runs themselves. -/

namespace GitSlice

open List

namespace CheckState

/-- The result of a check is the one of its highest attempt that ended passed, failed or errored. -/
def Records (s : CheckState) (key : CheckKey) (result : String) : Prop :=
  ∃ r ∈ s.runs, r.key = key ∧ r.status.result = some result ∧
    ∀ r' ∈ s.runs, r'.key = key → r'.status.result ≠ none → r'.attempt ≤ r.attempt

/-- `check_results` follows the runs. -/
structure ResultsSound (s : CheckState) : Prop where
  recorded : ∀ key result,
    (s.results.get key).map CheckResult.status = some result ↔ s.Records key result
  plain : ∀ t tx, s.txs t = some tx → tx.IsPlain

variable {s s' : CheckState}

theorem records_congr {f : RunRow → RunRow} {new : List RunRow}
    (hruns : s'.runs = s.runs.map f ++ new)
    {key : CheckKey} (hf : ∀ r ∈ s.runs, (f r).key = r.key ∧ (f r).attempt = r.attempt ∧
      (r.key = key → (f r).status.result = r.status.result))
    (hnew : ∀ r ∈ new, r.status.result = none)
    (result : String) : s'.Records key result ↔ s.Records key result := by
  have hmem : ∀ r' ∈ s'.runs, (∃ r ∈ s.runs, f r = r') ∨ r'.status.result = none := by
    intro r' hr'
    rw [hruns] at hr'
    rcases mem_append.mp hr' with h | h
    · exact .inl (mem_map.mp h)
    · exact .inr (hnew r' h)
  have hold : ∀ r ∈ s.runs, f r ∈ s'.runs := fun r hr => by
    rw [hruns]
    exact mem_append_left _ (mem_map.mpr ⟨r, hr, rfl⟩)
  constructor
  · rintro ⟨r', hr', hkey, hres, hmax⟩
    rcases hmem r' hr' with ⟨r, hr, rfl⟩ | hnone
    · obtain ⟨hk, ha, hs⟩ := hf r hr
      have hkey := hk.symm.trans hkey
      refine ⟨r, hr, hkey, (hs hkey).symm.trans hres, fun x hx hxkey hxres => ?_⟩
      obtain ⟨hxk, hxa, hxs⟩ := hf x hx
      have hle := hmax (f x) (hold x hx) (hxk.trans hxkey) (by rw [hxs hxkey]; exact hxres)
      omega
    · rw [hnone] at hres
      cases hres
  · rintro ⟨r, hr, hkey, hres, hmax⟩
    obtain ⟨hk, ha, hs⟩ := hf r hr
    refine ⟨f r, hold r hr, hk.trans hkey, (hs hkey).trans hres, fun x' hx' hxkey hxres => ?_⟩
    rcases hmem x' hx' with ⟨x, hx, rfl⟩ | hnone
    · obtain ⟨hxk, hxa, hxs⟩ := hf x hx
      have hxkey := hxk.symm.trans hxkey
      have hle := hmax x hx hxkey (by rw [← hxs hxkey]; exact hxres)
      omega
    · exact absurd hnone hxres

section

variable (hs : s.ResultsSound)
include hs

theorem ResultsSound.congr (f : RunRow → RunRow) (new : List RunRow)
    (hruns : s'.runs = s.runs.map f ++ new)
    (hf : ∀ r ∈ s.runs, (f r).key = r.key ∧ (f r).attempt = r.attempt ∧
      (f r).status.result = r.status.result) (hnew : ∀ r ∈ new, r.status.result = none)
    (hresults : s'.results = s.results) (hplain : ∀ t tx, s'.txs t = some tx → tx.IsPlain) :
    s'.ResultsSound := by
  refine ⟨fun key result => ?_, hplain⟩
  rw [hresults, hs.recorded, records_congr hruns (fun r hr => (hf r hr).imp_right (And.imp_right fun h _ => h)) hnew]

variable {t : TxID}

theorem ResultsSound.takes {a : CheckAction} (h : Takes a t s s') (hplain : a.isPlain = true) :
    s'.ResultsSound := by
  refine hs.congr (fun r => r) [] (by rw [h.runs]; simp) (fun r _ => ⟨rfl, rfl, rfl⟩)
    (by simp) h.results fun u tx htx => ?_
  by_cases hu : u = t
  · subst hu
    exact h.plain hplain (hs.plain u) tx htx
  · rw [h.moves.txs u hu] at htx
    exact hs.plain u tx htx

theorem ResultsSound.plain_release (t : TxID)
    (htxs : s'.txs = (s.release t).txs) : ∀ u tx, s'.txs u = some tx → tx.IsPlain := by
  intro u tx htx
  rw [htxs] at htx
  by_cases hu : u = t
  · subst hu
    rw [release_txs] at htx
    cases htx
  · exact hs.plain u tx (by simpa [release, hu] using htx)

section

variable (hsound : s.AttemptsSound)
include hsound

theorem ResultsSound.commitCreate (t : TxID)
    (id : RunID) (hroom : s.runs.length < 2 ^ 31 - 1) : (s.commitCreate t id).ResultsSound := by
  rcases commitCreate_cases hsound t id hroom with
    hwait | hfail | ⟨key, status, attempt, htx, -, hcommit⟩
  · rw [hwait]
    exact hs
  · rw [hfail]
    exact hs.takes (a := .rollback t) (takes_rollback hsound.locks) rfl
  · rw [hcommit]
    refine hs.congr (supersede key.pair id) [newRow id key status attempt] rfl (fun r _ => ?_)
      (fun r hr => ?_) rfl (hs.plain_release t rfl)
    · unfold supersede
      split_ifs <;> exact ⟨rfl, rfl, rfl⟩
    · rw [mem_singleton.mp hr]
      exact hs.plain t _ htx

/-- The update that ends an attempt with a result: the run is the last of its check, so the result
of the check is now its own. -/
theorem ResultsSound.recordResult
    {id : RunID} {key : CheckKey} {status : RunStatus} {exitCode : Int} {summary result : String}
    {subject : Subject} (htx : s.txs t = some (.updating id key status exitCode summary))
    (hresult : status.result = some result) (hruns : s'.runs =
      s.runs.map fun r => if r.id ∈ [id] then r.withStatus status exitCode summary else r)
    (hresults : s'.results = s.results.set key ⟨result, subject⟩)
    (htxs : s'.txs = (s.release t).txs) : s'.ResultsSound := by
  obtain ⟨-, r, hr, hid, hkey, hacc⟩ := hsound.locks t _ htx
  have hlive : r ∈ s.live key.pair := by
    simp only [RunRow.accepts, decide_eq_true_eq] at hacc
    refine mem_live.mpr ⟨hr, by rw [hkey], hacc.2.resolve_right ?_⟩
    rintro rfl
    cases hresult
  -- the row of the run, and every other row, after the update
  have hmine : r.withStatus status exitCode summary ∈ s'.runs := by
    rw [hruns]
    exact mem_map.mpr ⟨r, hr, by simp [hid]⟩
  have hcases : ∀ x' ∈ s'.runs, x' = r.withStatus status exitCode summary ∨
      x' ∈ s.runs ∧ x'.id ≠ id := by
    intro x' hx'
    rw [hruns] at hx'
    obtain ⟨x, hx, rfl⟩ := mem_map.mp hx'
    by_cases hxid : x.id = id
    · have heq : x = r := hsound.rows.eq_of_id hx hr (hxid.trans hid.symm)
      subst heq
      exact .inl (by simp [hxid])
    · exact .inr (by simpa [hxid] using hx)
  have hbelow : ∀ x ∈ s.runs, x.key = key → x.attempt ≤ r.attempt := fun x hx hxkey =>
    hsound.rows.le_of_live hlive hx (by rw [hxkey])
  refine ⟨fun k v => ?_, hs.plain_release t htxs⟩
  rw [hresults, Table.get_set]
  by_cases hk : k = key
  · subst hk
    constructor
    · intro hv
      have hv' : result = v := by simpa using hv
      subst hv'
      refine ⟨_, hmine, hkey, hresult, fun x' hx' hxkey _ => ?_⟩
      rcases hcases x' hx' with rfl | ⟨hx, -⟩
      · exact le_refl _
      · exact hbelow x' hx hxkey
    · rintro ⟨x', hx', hxkey, hxres, hmax⟩
      rcases hcases x' hx' with rfl | ⟨hx, hxid⟩
      · have hv : some result = some v := hresult.symm.trans hxres
        simpa using hv
      · -- another ended row would have a lower attempt than the last one
        have hle : r.attempt ≤ x'.attempt :=
          hmax (r.withStatus status exitCode summary) hmine hkey
            (by show status.result ≠ none; rw [hresult]; simp)
        have hge := hbelow x' hx hxkey
        rcases hsound.rows.cases hx hr (by rw [hxkey, hkey]) with rfl | ⟨hlt, -⟩ | ⟨hlt, -⟩
        · exact absurd hid hxid
        · omega
        · omega
  · -- a run of another check is not the one that is updated
    rw [if_neg hk, hs.recorded]
    refine (records_congr (hruns.trans (append_nil _).symm) (fun x hx => ?_) (by simp) v).symm
    split_ifs with hxid
    · refine ⟨rfl, rfl, fun hxkey => absurd ?_ hk⟩
      rw [← hxkey, hsound.rows.eq_of_id hx hr ((mem_singleton.mp hxid).trans hid.symm), hkey]
    · exact ⟨rfl, rfl, fun _ => rfl⟩

theorem ResultsSound.commitUpdate (t : TxID)
    (reporter : Option Subject) : (s.commitUpdate t reporter).ResultsSound := by
  unfold CheckState.commitUpdate
  split
  · rename_i id key status exitCode summary htx
    split
    · rename_i hnone
      -- neither the old status nor the new one has a result
      refine hs.congr _ [] (append_nil _).symm (fun r hr => ?_) (by simp) rfl
        (hs.plain_release t rfl)
      split_ifs with hid
      · have hacc := (hsound.updating_row htx hr (mem_singleton.mp hid)).2
        refine ⟨rfl, rfl, ?_⟩
        simp only [RunRow.accepts, decide_eq_true_eq] at hacc
        show status.result = r.status.result
        rw [hnone]
        by_contra hres
        rw [RunStatus.isTerminal_of_result fun h => hres h.symm] at hacc
        cases hacc.1
      · exact ⟨rfl, rfl, rfl⟩
    · exact hs.takes (a := .rollback t) (takes_rollback hsound.locks) rfl
    · rename_i result subject hresult
      exact hs.recordResult hsound htx hresult rfl rfl rfl
  · exact hs

theorem ResultsSound.commitCancel (t : TxID) :
    (s.commitCancel t).ResultsSound := by
  unfold CheckState.commitCancel
  split
  · rename_i changeset patchset written htx
    refine hs.congr _ [] (append_nil _).symm (fun r hr => ?_) (by simp) rfl
      (hs.plain_release t rfl)
    split_ifs with hid
    · obtain ⟨-, r', hr', hid', hopen⟩ := hsound.locks t _ htx r.id hid
      rw [hsound.rows.eq_of_id hr hr' hid'.symm]
      refine ⟨rfl, rfl, ?_⟩
      simp only [RunRow.isOpenBefore, decide_eq_true_eq] at hopen
      rcases hopen.2.2.2 with hq | hq <;> rw [hq] <;> rfl
    · exact ⟨rfl, rfl, rfl⟩
  · exact hs

/-- One step of any server that neither reports by hand nor creates a run that has already ended. -/
theorem ResultsSound.step (a : CheckAction)
    (hroom : a.isCommitCreate = true → s.runs.length < 2 ^ 31 - 1) (hplain : a.isPlain = true) :
    (s.step a).ResultsSound := by
  cases ht : taker a with
  | some t => exact hs.takes (takes_step ht hsound.locks) hplain
  | none =>
    cases a with
    | addPatchset =>
      exact hs.congr (fun r => r) [] (by simp [CheckState.step]) (fun r _ => ⟨rfl, rfl, rfl⟩)
        (by simp) rfl
        hs.plain
    | commitCreate t id => exact hs.commitCreate hsound t id (hroom rfl)
    | commitUpdate t reporter => exact hs.commitUpdate hsound t reporter
    | commitCancel t => exact hs.commitCancel hsound t
    | report => cases hplain
    | _ => cases ht

end

end

/-! ## Every run -/

theorem attemptsSound_start : start.AttemptsSound where
  rows := ⟨nodup_nil, .nil, (fun _ h => nomatch h), (fun _ h => nomatch h), (fun _ h => nomatch h)⟩
  locks _ _ h := nomatch h

theorem resultsSound_start : start.ResultsSound where
  recorded key result := by simp [start, Records]
  plain _ _ h := nomatch h

theorem length_step (hs : s.AttemptsSound) (a : CheckAction)
    (hroom : a.isCommitCreate = true → s.runs.length < 2 ^ 31 - 1) :
    (s.step a).runs.length ≤ s.runs.length + if a.isCommitCreate then 1 else 0 := by
  cases ht : taker a with
  | some t =>
    rw [(takes_step ht hs.locks).runs]
    exact Nat.le_add_right _ _
  | none =>
    cases a with
    | addPatchset => exact le_refl _
    | commitCreate t id =>
      rcases commitCreate_cases hs t id (hroom rfl) with hwait | hfail | ⟨_, _, _, -, -, hcommit⟩
      · simp [step, hwait]
      · simp [step, hfail, release]
      · simp [step, hcommit, CheckAction.isCommitCreate]
    | commitUpdate =>
      rw [step, commitUpdate]
      split
      · dsimp only
        split <;> simp [rewrite, release]
      · simp
    | commitCancel =>
      rw [step, commitCancel]
      split <;> simp [rewrite, release]
    | report =>
      rw [step, report]
      split <;> simp
    | _ => cases ht

theorem after_append (as bs : List CheckAction) :
    after (as ++ bs) = Machine.run step (after as) bs := Machine.run_append step start as bs

/-- The state after any actions that create no more runs than an `int32` can number. -/
theorem sound_after (as : List CheckAction)
    (hroom : as.countP CheckAction.isCommitCreate ≤ 2 ^ 31 - 1) :
    (after as).AttemptsSound ∧
      (after as).runs.length ≤ as.countP CheckAction.isCommitCreate := by
  induction as using List.reverseRecOn with
  | nil => exact ⟨attemptsSound_start, Nat.le_refl _⟩
  | append_singleton as a ih =>
    rw [countP_append, countP_singleton] at hroom ⊢
    obtain ⟨hs, hlen⟩ := ih (by omega)
    have hnext : a.isCommitCreate = true → (after as).runs.length < 2 ^ 31 - 1 := by
      intro hcreate
      rw [if_pos hcreate] at hroom
      omega
    have hstep := length_step hs a hnext
    rw [after_append]
    exact ⟨(step_sound hs a hnext).2, by simp only [Machine.run_cons, Machine.run_nil]; omega⟩

variable {as : List CheckAction}

theorem resultsSound_after (hroom : as.countP CheckAction.isCommitCreate ≤ 2 ^ 31 - 1)
    (hplain : ∀ a ∈ as, a.isPlain = true) : (after as).ResultsSound := by
  induction as using List.reverseRecOn with
  | nil => exact resultsSound_start
  | append_singleton as a ih =>
    rw [countP_append, countP_singleton] at hroom
    have hold := ih (by omega) fun x hx => hplain x (by simp [hx])
    obtain ⟨hs, hlen⟩ := sound_after as (by omega)
    rw [after_append]
    refine hold.step hs a (fun hcreate => ?_) (hplain a (by simp))
    rw [if_pos hcreate] at hroom
    omega

theorem rowsKept_after (bs : List CheckAction)
    (hroom : (as ++ bs).countP CheckAction.isCommitCreate ≤ 2 ^ 31 - 1) :
    RowsKept (after as) (after (as ++ bs)) := by
  induction bs using List.reverseRecOn with
  | nil => exact fun r hr => ⟨r, by simpa using hr, .refl r⟩
  | append_singleton bs b ih =>
    rw [← append_assoc] at hroom ⊢
    rw [countP_append, countP_singleton] at hroom
    obtain ⟨hs, hlen⟩ := sound_after (as ++ bs) (by omega)
    intro r hr
    obtain ⟨r', hr', hkeeps⟩ := ih (by omega) r hr
    have hstep := (step_sound hs b fun hcreate => by
      rw [if_pos hcreate] at hroom
      omega).1
    obtain ⟨r'', hr'', hkeeps'⟩ := hstep r' hr'
    rw [after_append]
    exact ⟨r'', hr'', hkeeps.trans hkeeps'⟩

end CheckState

open CheckState

/-- **Check attempts.** After any interleaving of the transactions that creates no more runs than an
`int32` can number: a run of a check that is not superseded is the only one and has the highest
attempt; the attempts of a check grow in the order its runs were created; a run that ended keeps its
status whatever happens later; and when no result is reported by hand and no run is created already
passed, failed or errored, the recorded result of a check is the one of its highest attempt that
ended so, and there is none if no attempt did. -/
theorem check_attempts (as : List CheckAction)
    (hroom : as.countP CheckAction.isCommitCreate ≤ 2 ^ 31 - 1) :
    (∀ r ∈ (after as).runs, r.supersededBy = none → ∀ r' ∈ (after as).runs,
      r'.key.pair = r.key.pair → r'.attempt ≤ r.attempt ∧ (r'.supersededBy = none → r' = r)) ∧
    ((after as).runs.Pairwise fun r r' => r.key.pair = r'.key.pair → r.attempt < r'.attempt) ∧
    (∀ bs, (as ++ bs).countP CheckAction.isCommitCreate ≤ 2 ^ 31 - 1 → ∀ r ∈ (after as).runs,
      r.status.isTerminal = true →
        ∃ r' ∈ (after (as ++ bs)).runs, r'.id = r.id ∧ r'.status = r.status) ∧
    ((∀ a ∈ as, a.isPlain = true) → ∀ key result,
      ((after as).results.get key).map CheckResult.status = some result ↔
        (after as).Records key result) := by
  obtain ⟨hs, -⟩ := sound_after as hroom
  refine ⟨fun r hr hlive r' hr' hpair => ?_, ?_, fun bs hbs r hr hend => ?_, fun hplain => ?_⟩
  · refine ⟨hs.rows.le_of_live (mem_live.mpr ⟨hr, rfl, hlive⟩) hr' hpair, fun hlive' => ?_⟩
    rcases hs.rows.cases hr' hr hpair with heq | ⟨-, hsup⟩ | ⟨-, hsup⟩
    · exact heq
    · exact absurd hlive' hsup
    · exact absurd hlive hsup
  · exact hs.rows.order.imp fun h hpair => (h hpair).1
  · obtain ⟨r', hr', hkeeps⟩ := rowsKept_after bs hbs r hr
    exact ⟨r', hr', hkeeps.id, hkeeps.ended hend⟩
  · exact (resultsSound_after hroom hplain).recorded

/-- A check is tried twice: the first attempt reports after the second one was created, the second
one passes. -/
def retriedCheck : List CheckAction :=
  [.addPatchset "ps_1" "cs_1",
    .beginCreate 1 "cs_1" "ps_1" "build" "queued", .countAttempts 1, .commitCreate 1 "run_1",
    .beginCreate 2 "cs_1" "ps_1" "build" "queued", .countAttempts 2, .commitCreate 2 "run_2",
    .beginUpdate 3 "run_1" "failed" 1 "", .commitUpdate 3 (some "daemon"),
    .beginUpdate 4 "run_2" "passed" 0 "", .commitUpdate 4 (some "daemon")]

theorem check_attempts_retriedCheck :
    ((after retriedCheck).runs.map fun r => (r.id, r.attempt, r.status)) =
      [("run_1", 1, .queued), ("run_2", 2, .passed)] ∧
    (after retriedCheck).Records ⟨"cs_1", "ps_1", "build"⟩ "pass" := by
  refine ⟨by decide +kernel, ?_⟩
  refine ((check_attempts retriedCheck (by decide +kernel)).2.2.2 (by decide +kernel) _ _).mp ?_
  decide +kernel

/-- A run that is created already passed records no result. -/
def createdPassed : List CheckAction :=
  [.addPatchset "ps_1" "cs_1",
    .beginCreate 1 "cs_1" "ps_1" "build" "passed", .countAttempts 1, .commitCreate 1 "run_1"]

theorem created_passed_unrecorded :
    (after createdPassed).Records ⟨"cs_1", "ps_1", "build"⟩ "pass" ∧
      (after createdPassed).results.get ⟨"cs_1", "ps_1", "build"⟩ = none := by
  have hruns : (after createdPassed).runs =
      [newRow "run_1" ⟨"cs_1", "ps_1", "build"⟩ .passed 1] := by decide +kernel
  refine ⟨⟨newRow "run_1" ⟨"cs_1", "ps_1", "build"⟩ .passed 1, by rw [hruns]; simp, rfl,
    by decide +kernel, fun r hr _ _ => ?_⟩, by decide +kernel⟩
  rw [hruns, mem_singleton] at hr
  rw [hr]

end GitSlice
