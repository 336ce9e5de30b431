import GitSlice.Checks.Runs

/-! # Attempts of a check
What every interleaving of check-run transactions keeps (`AttemptsSound`), from which
`check_attempts` follows: attempts are numbered in the order they are created, only the last one is
not superseded, a run that ended keeps its status, and the recorded result is the one of the highest
attempt that ended passed, failed or errored.

The argument is one about locks. A row is only rewritten by the transaction that holds its lock, so
what another transaction has read under its own locks (`CheckState.Holding`) stays true; `Moves`
says this for one step, and `Moves.holding` carries it over to the other transactions. -/

namespace GitSlice

open List Function

/-- No result is reported by hand, and no run is created already passed, failed or errored: only
`UpdateCheckRunStatus` records a result. -/
def CheckAction.isPlain : CheckAction → Bool
  | .report _ _ _ => false
  | .beginCreate _ _ _ _ status => (normalizeCheckRunStatus status).bind RunStatus.result = none
  | _ => true

/-- The run a transaction is about to create records no result. -/
def CheckTx.IsPlain : CheckTx → Prop
  | .creating _ status | .counted _ status _ => status.result = none
  | .updating _ _ _ _ _ | .canceling _ _ _ _ => True

namespace CheckState

/-! ## What an open transaction knows -/

/-- What the locks of a transaction guarantee it. -/
def Holding (s : CheckState) (t : TxID) : CheckTx → Prop
  | .creating key _ => s.checkLock key.pair = some t
  | .counted key _ attempt =>
    s.checkLock key.pair = some t ∧ s.patchsets.get key.patchset = some key.changeset ∧
      (∀ r ∈ s.live key.pair, s.rowLock r.id = some t) ∧
      attempt = nextAttempt ((s.live key.pair).map RunRow.attempt)
  | .updating id key status _ _ =>
    s.rowLock id = some t ∧ ∃ r ∈ s.runs, r.id = id ∧ r.key = key ∧ r.accepts status = true
  | .canceling changeset patchset _ written =>
    ∀ id ∈ written, s.rowLock id = some t ∧
      ∃ r ∈ s.runs, r.id = id ∧ r.isOpenBefore changeset patchset = true

/-- What no transaction changes in a row. -/
structure Keeps (r r' : RunRow) : Prop where
  id : r'.id = r.id
  key : r'.key = r.key
  attempt : r'.attempt = r.attempt
  superseded : r'.supersededBy = none → r.supersededBy = none
  ended : r.status.isTerminal = true → r'.status = r.status

theorem Keeps.refl (r : RunRow) : Keeps r r := ⟨rfl, rfl, rfl, fun h => h, fun _ => rfl⟩

variable {r r' : RunRow}

theorem Keeps.trans {r'' : RunRow} (h : Keeps r r') (h' : Keeps r' r'') : Keeps r r'' where
  id := h'.id.trans h.id
  key := h'.key.trans h.key
  attempt := h'.attempt.trans h.attempt
  superseded hnone := h.superseded (h'.superseded hnone)
  ended hend := (h'.ended (by rw [h.ended hend]; exact hend)).trans (h.ended hend)

/-- A step of the transaction `t`: it leaves the other transactions and their locks alone, rewrites
only rows it has locked and keeps what identifies them, and adds rows only under its advisory
lock. -/
structure Moves (t : TxID) (s s' : CheckState) : Prop where
  txs : ∀ u, u ≠ t → s'.txs u = s.txs u
  checkLock : ∀ u, u ≠ t → ∀ pair, s.checkLock pair = some u → s'.checkLock pair = some u
  rowLock : ∀ u, u ≠ t → ∀ id, s.rowLock id = some u → s'.rowLock id = some u
  patchsets : s'.patchsets = s.patchsets
  runs : ∃ (f : RunRow → RunRow) (new : List RunRow), s'.runs = s.runs.map f ++ new ∧
    (∀ r ∈ s.runs, Keeps r (f r) ∧ (f r = r ∨ s.rowLock r.id = some t)) ∧
    ∀ r ∈ new, s.checkLock r.key.pair = some t

theorem Moves.refl (t : TxID) (s : CheckState) : Moves t s s where
  txs _ _ := rfl
  checkLock _ _ _ h := h
  rowLock _ _ _ h := h
  patchsets := rfl
  runs := ⟨id, [], by simp, fun r _ => ⟨.refl r, .inl rfl⟩, by simp⟩

variable {t u : TxID} {s s' : CheckState}

theorem Moves.mem_runs (h : Moves t s s') (hu : u ≠ t) (hr : r ∈ s.runs)
    (hlock : s.rowLock r.id = some u) :
    r ∈ s'.runs := by
  obtain ⟨f, new, hruns, hf, -⟩ := h.runs
  have hfr : f r = r := by
    rcases (hf r hr).2 with heq | hmine
    · exact heq
    · rw [hlock] at hmine
      exact absurd (Option.some.inj hmine) hu
  rw [hruns]
  exact mem_append_left _ (mem_map.mpr ⟨r, hr, hfr⟩)

variable {pair : PatchsetID × String}

/-- The live rows of a check stay as they are while another transaction holds their locks and the
advisory lock of the check. -/
theorem Moves.live (h : Moves t s s') (hu : u ≠ t) (hlock : s.checkLock pair = some u)
    (hrows : ∀ r ∈ s.live pair, s.rowLock r.id = some u) : s'.live pair = s.live pair := by
  obtain ⟨f, new, hruns, hf, hnew⟩ := h.runs
  have hnone : new.filter (RunRow.isLive pair) = [] := by
    refine filter_eq_nil_iff.mpr fun r hr hlive => ?_
    have hpair : r.key.pair = pair := by
      simp only [RunRow.isLive, decide_eq_true_eq] at hlive
      exact hlive.1
    have hmine := hnew r hr
    rw [hpair, hlock] at hmine
    exact hu (Option.some.inj hmine)
  -- a live row is locked by `u`, so `f` keeps it; a row that is not live does not become live
  have hlive : ∀ r ∈ s.runs, (r.isLive pair = true → f r = r) ∧
      (RunRow.isLive pair ∘ f) r = r.isLive pair := by
    intro r hr
    obtain ⟨hkeeps, hsame⟩ := hf r hr
    by_cases hlive : r.isLive pair = true
    · have hfr : f r = r := by
        refine hsame.resolve_right fun hmine => ?_
        rw [hrows r (mem_filter.mpr ⟨hr, hlive⟩)] at hmine
        exact hu (Option.some.inj hmine)
      exact ⟨fun _ => hfr, congrArg (RunRow.isLive pair) hfr⟩
    · refine ⟨fun h => absurd h hlive, ?_⟩
      rw [Bool.eq_iff_iff, iff_false_right hlive]
      intro hfl
      apply hlive
      simp only [Function.comp, RunRow.isLive, decide_eq_true_eq] at hfl ⊢
      exact ⟨by rw [← hkeeps.key]; exact hfl.1, hkeeps.superseded hfl.2⟩
  rw [CheckState.live, CheckState.live, hruns, filter_append, hnone, append_nil, filter_map,
    filter_congr fun r hr => (hlive r hr).2, map_congr_left, map_id]
  exact fun r hr => (hlive r (mem_filter.mp hr).1).1 (mem_filter.mp hr).2

variable {tx : CheckTx}

/-- What a transaction knows stays true as long as its locks, the rows they are on and the live rows
of the checks they are on stay. -/
theorem Holding.mono (hcheck : ∀ pair, s.checkLock pair = some u → s'.checkLock pair = some u)
    (hrow : ∀ id, s.rowLock id = some u → s'.rowLock id = some u)
    (hps : s.patchsets.Extends s'.patchsets)
    (hruns : ∀ r ∈ s.runs, s.rowLock r.id = some u → r ∈ s'.runs)
    (hlive : ∀ pair, s.checkLock pair = some u → (∀ r ∈ s.live pair, s.rowLock r.id = some u) →
      s'.live pair = s.live pair) (htx : s.Holding u tx) : s'.Holding u tx := by
  cases tx with
  | creating => exact hcheck _ htx
  | counted =>
    obtain ⟨hlock, hget, hrows, hattempt⟩ := htx
    have hsame := hlive _ hlock hrows
    refine ⟨hcheck _ hlock, hps _ _ hget, fun r hr => ?_, ?_⟩
    · rw [hsame] at hr
      exact hrow _ (hrows r hr)
    · rw [hsame]
      exact hattempt
  | updating =>
    obtain ⟨hlock, r, hr, rfl, hkey, hacc⟩ := htx
    exact ⟨hrow _ hlock, r, hruns r hr hlock, rfl, hkey, hacc⟩
  | canceling =>
    intro id hid
    obtain ⟨hlock, r, hr, rfl, hopen⟩ := htx id hid
    exact ⟨hrow _ hlock, r, hruns r hr hlock, rfl, hopen⟩

theorem Moves.holding (h : Moves t s s') (hu : u ≠ t) (htx : s.Holding u tx) : s'.Holding u tx :=
  htx.mono (h.checkLock u hu) (h.rowLock u hu) (h.patchsets ▸ .refl _) (fun _ => h.mem_runs hu)
    fun _ => h.live hu

/-- Every open transaction knows what its locks guarantee. -/
def LocksSound (s : CheckState) : Prop := ∀ t tx, s.txs t = some tx → s.Holding t tx

/-- A step of one transaction keeps what all know, once its own part is checked. -/
theorem LocksSound.moves (hs : s.LocksSound) (h : Moves t s s')
    (hown : ∀ tx, s'.txs t = some tx → s'.Holding t tx) : s'.LocksSound := by
  intro u tx htx
  by_cases hu : u = t
  · subst hu
    exact hown tx htx
  · rw [h.txs u hu] at htx
    exact h.holding hu (hs u tx htx)

/-! ## One step -/

/-- Two states differ in what `t` is at and in its row locks only. -/
theorem moves_setTx (t : TxID) (s : CheckState) (tx : CheckTx) : Moves t s (s.setTx t tx) where
  txs u hu := by simp [setTx, hu]
  checkLock _ _ _ h := h
  rowLock _ _ _ h := h
  patchsets := rfl
  runs := (Moves.refl t s).runs

variable {ids : List RunID}

theorem moves_lockRows (tx : CheckTx) (hfree : ∀ id ∈ ids, s.isLockedFor t id = false) :
    Moves t s ((s.lockRows t ids).setTx t tx) where
  txs u hu := by simp [setTx, lockRows, hu]
  checkLock _ _ _ h := h
  rowLock u hu id h := by
    show (if id ∈ ids then some t else s.rowLock id) = some u
    have hid : id ∉ ids := by
      intro hmem
      have hlocked := hfree id hmem
      simp only [isLockedFor, h, decide_eq_false_iff_not, not_and, not_not] at hlocked
      exact hu (Option.some.inj (hlocked (by simp)))
    rw [if_neg hid, h]
  patchsets := rfl
  runs := (Moves.refl t s).runs

variable (f : RunRow → RunRow)

/-- Ending a transaction, with rows rewritten that it has locked and rows added under its advisory
lock. -/
theorem moves_release (new : List RunRow) (htxs : s'.txs = (s.release t).txs)
    (hcheck : s'.checkLock = (s.release t).checkLock) (hrow : s'.rowLock = (s.release t).rowLock)
    (hps : s'.patchsets = s.patchsets) (hruns : s'.runs = s.runs.map f ++ new)
    (hf : ∀ r ∈ s.runs, Keeps r (f r) ∧ (f r = r ∨ s.rowLock r.id = some t))
    (hnew : ∀ r ∈ new, s.checkLock r.key.pair = some t) : Moves t s s' where
  txs u hu := by rw [htxs]; simp [release, hu]
  checkLock u hu pair h := by
    have hne : u ≠ t := hu
    rw [hcheck]
    simp [release, h, hne]
  rowLock u hu id h := by
    have hne : u ≠ t := hu
    rw [hrow]
    simp [release, h, hne]
  patchsets := hps
  runs := ⟨f, new, hruns, hf, hnew⟩

theorem moves_rollback (t : TxID) (s : CheckState) : Moves t s (s.release t) :=
  moves_release id [] rfl rfl rfl rfl (by simp [release]) (fun r _ => ⟨.refl r, .inl rfl⟩) (by simp)

@[simp] theorem release_txs (t : TxID) (s : CheckState) : (s.release t).txs t = none := by
  simp [release]

/-- A step of the transaction `t` that keeps the locks sound. -/
theorem LocksSound.ends (hs : s.LocksSound) (h : Moves t s s') (hend : s'.txs t = none) :
    s'.LocksSound :=
  hs.moves h fun tx htx => by rw [hend] at htx; cases htx

/-- A step that takes or frees locks and writes nothing yet. -/
structure Takes (a : CheckAction) (t : TxID) (s s' : CheckState) : Prop where
  moves : Moves t s s'
  runs : s'.runs = s.runs
  results : s'.results = s.results
  locks : s'.LocksSound
  plain : a.isPlain = true → (∀ tx, s.txs t = some tx → tx.IsPlain) →
    ∀ tx, s'.txs t = some tx → tx.IsPlain

variable {a : CheckAction} {id : RunID}

theorem mem_of_row (h : s.row id = some r) : r ∈ s.runs ∧ r.id = id :=
  ⟨mem_of_find?_eq_some h, by simpa using List.find?_some h⟩

section

variable (hs : s.LocksSound)
include hs

theorem Takes.refl : Takes a t s s :=
  ⟨.refl t s, rfl, rfl, hs, fun _ h => h⟩

theorem Takes.of_tx (hmoves : Moves t s s') (hruns : s'.runs = s.runs)
    (hresults : s'.results = s.results) (htx : s'.txs t = some tx) (hown : s'.Holding t tx)
    (hplain : a.isPlain = true → (∀ tx, s.txs t = some tx → tx.IsPlain) → tx.IsPlain) :
    Takes a t s s' := by
  have hself : ∀ {P : CheckTx → Prop}, P tx → ∀ tx', s'.txs t = some tx' → P tx' := by
    intro P hP tx' htx'
    rw [htx, Option.some.injEq] at htx'
    exact htx' ▸ hP
  exact ⟨hmoves, hruns, hresults, hs.moves hmoves (hself hown),
    fun ha hold => hself (hplain ha hold)⟩

theorem takes_rollback : Takes a t s (s.release t) :=
  ⟨moves_rollback t s, rfl, rfl, hs.ends (moves_rollback t s) (release_txs t s),
    fun _ _ tx h => by simp at h⟩

theorem takes_beginCreate {changeset patchset check status : String} :
    Takes (.beginCreate t changeset patchset check status) t s
      (s.beginCreate t changeset patchset check status) := by
  unfold beginCreate
  split
  · exact .refl hs
  · rename_i st hst
    dsimp only
    split_ifs with hargs hbusy
    · exact .refl hs
    · exact .refl hs
    · simp only [not_or, not_not] at hbusy
      have hmoves : Moves t s
          { s.setTx t (.creating ⟨trimSpace changeset, trimSpace patchset, trimSpace check⟩ st) with
            checkLock := Function.update s.checkLock (trimSpace patchset, trimSpace check) (some t) } := by
        refine ⟨fun u hu => by simp [setTx, hu], fun u hu pair h => ?_, fun _ _ _ h => h, rfl,
          (Moves.refl t s).runs⟩
        have hpair : pair ≠ (trimSpace patchset, trimSpace check) := by
          rintro rfl
          rw [hbusy.2] at h
          cases h
        simpa [hpair] using h
      exact .of_tx hs hmoves rfl rfl (update_self ..) (by simp [Holding]) fun hplain _ => by
        simpa [CheckAction.isPlain, CheckTx.IsPlain, hst] using hplain

theorem takes_countAttempts : Takes (.countAttempts t) t s (s.countAttempts t) := by
  unfold countAttempts
  split
  · rename_i key status htx
    split_ifs with hps hwait
    · exact takes_rollback hs
    · exact .refl hs
    · have hfree : ∀ id ∈ (s.live key.pair).map RunRow.id, s.isLockedFor t id = false := by
        intro id hid
        obtain ⟨r, hr, rfl⟩ := mem_map.mp hid
        by_contra hlocked
        exact hwait (any_eq_true.mpr ⟨r, hr, by simpa using hlocked⟩)
      have hmoves := moves_lockRows
        (.counted key status (nextAttempt ((s.live key.pair).map RunRow.attempt))) hfree
      have hlock : s.checkLock key.pair = some t := hs t _ htx
      refine .of_tx hs hmoves rfl rfl (update_self ..) ⟨hlock, not_not.mp hps, fun r hr => ?_, rfl⟩
        fun _ hold => hold (.creating key status) htx
      have hmem : r.id ∈ (s.live key.pair).map RunRow.id := mem_map.mpr ⟨r, hr, rfl⟩
      simp only [setTx, lockRows, if_pos hmem]
  · exact .refl hs

theorem takes_beginUpdate {status summary : String} {exitCode : Int} :
    Takes a t s (s.beginUpdate t id status exitCode summary) := by
  unfold beginUpdate
  split
  · rename_i st r hst hrow hidle
    split_ifs with hwait hacc
    · exact .refl hs
    · simp only [not_or] at hwait
      have hmoves : Moves t s ((s.lockRows t [r.id]).setTx t
          (.updating r.id r.key st exitCode (trimSpace summary))) :=
        moves_lockRows _ fun i hi => by
          rw [mem_singleton.mp hi]
          simp [isLockedFor, hwait.2]
      exact .of_tx hs hmoves rfl rfl (update_self ..)
        ⟨by simp [setTx, lockRows], r, (mem_of_row hrow).1, rfl, rfl, hacc⟩ fun _ _ => trivial
    · exact .refl hs
  · exact .refl hs

theorem takes_beginCancel {changeset patchset : String} :
    Takes a t s (s.beginCancel t changeset patchset) := by
  unfold beginCancel
  dsimp only
  split_ifs with hargs hbusy
  · exact .refl hs
  · exact .refl hs
  · exact .of_tx hs (moves_setTx t s _) rfl rfl (update_self ..)
      (by simp [Holding]) fun _ _ => trivial

theorem takes_cancelNext : Takes a t s (s.cancelNext t) := by
  unfold cancelNext
  split
  · rename_i changeset patchset id remaining written htx
    -- a row that is skipped leaves the rows written so far
    have hskip : Takes a t s (s.setTx t (.canceling changeset patchset remaining written)) :=
      .of_tx hs (moves_setTx t s _) rfl rfl (update_self ..) (hs t _ htx) fun _ _ => trivial
    split_ifs with hwait
    · exact .refl hs
    · split
      · exact hskip
      · rename_i r hrow
        split_ifs with hopen
        · obtain ⟨hr, hid⟩ := mem_of_row hrow
          have hmoves : Moves t s ((s.lockRows t [r.id]).setTx t
              (.canceling changeset patchset remaining (r.id :: written))) :=
            moves_lockRows _ fun i hi => by
              rw [mem_singleton.mp hi, hid]
              simpa using hwait
          refine .of_tx hs hmoves rfl rfl (update_self ..) (fun i hi => ?_) fun _ _ => trivial
          by_cases hir : i = r.id
          · subst hir
            exact ⟨by simp [setTx, lockRows], r, hr, rfl, hopen⟩
          · have hold := hs t _ htx i (mem_of_ne_of_mem hir hi)
            refine ⟨?_, hold.2⟩
            simpa [setTx, lockRows, hir] using hold.1
        · exact hskip
  · exact .refl hs

end

/-- The transaction of a step that only takes or frees locks. -/
def taker : CheckAction → Option TxID
  | .beginCreate t _ _ _ _ | .countAttempts t | .beginUpdate t _ _ _ _ => some t
  | .beginCancel t _ _ | .cancelNext t | .rollback t => some t
  | _ => none

theorem takes_step (ha : taker a = some t) (hs : s.LocksSound) : Takes a t s (s.step a) := by
  unfold step
  cases a with
  | beginCreate =>
    cases ha
    exact takes_beginCreate hs
  | countAttempts =>
    cases ha
    exact takes_countAttempts hs
  | beginUpdate =>
    cases ha
    exact takes_beginUpdate hs
  | beginCancel =>
    cases ha
    exact takes_beginCancel hs
  | cancelNext =>
    cases ha
    exact takes_cancelNext hs
  | rollback =>
    cases ha
    exact takes_rollback hs
  | _ => cases ha

/-! ## The rows -/

/-- The rows of `check_runs`: the attempts of a check grow in the order the rows were added, every
row but the last one of its check is superseded, and some row of a check is not. -/
structure RowsSound (s : CheckState) : Prop where
  ids : (s.runs.map RunRow.id).Nodup
  order : s.runs.Pairwise fun r r' =>
    r.key.pair = r'.key.pair → r.attempt < r'.attempt ∧ r.supersededBy ≠ none
  latest : ∀ r ∈ s.runs, s.live r.key.pair ≠ []
  bound : ∀ r ∈ s.runs, 1 ≤ r.attempt ∧ r.attempt ≤ s.runs.length
  owner : ∀ r ∈ s.runs, s.patchsets.get r.key.patchset = some r.key.changeset

theorem mem_live : r ∈ s.live pair ↔ r ∈ s.runs ∧ r.key.pair = pair ∧ r.supersededBy = none := by
  simp [live, RunRow.isLive]

section

variable (hs : s.RowsSound)
include hs

theorem RowsSound.eq_of_id (hr : r ∈ s.runs) (hr' : r' ∈ s.runs) (hid : r.id = r'.id) : r = r' :=
  inj_on_of_nodup_map hs.ids hr hr' hid

theorem RowsSound.cases (hr : r ∈ s.runs) (hr' : r' ∈ s.runs) (hpair : r.key.pair = r'.key.pair) :
    r = r' ∨ (r.attempt < r'.attempt ∧ r.supersededBy ≠ none) ∨
      (r'.attempt < r.attempt ∧ r'.supersededBy ≠ none) := by
  by_cases heq : r = r'
  · exact .inl heq
  · right
    rcases pairwise_iff_getElem.mp hs.order with horder
    obtain ⟨i, hi, rfl⟩ := getElem_of_mem hr
    obtain ⟨j, hj, rfl⟩ := getElem_of_mem hr'
    rcases Nat.lt_trichotomy i j with hij | hij | hij
    · exact .inl (horder i j hi hj hij hpair)
    · subst hij
      exact absurd rfl heq
    · exact .inr (horder j i hj hi hij hpair.symm)

theorem RowsSound.le_of_live (hr : r ∈ s.live pair) (hr' : r' ∈ s.runs)
    (hpair : r'.key.pair = pair) : r'.attempt ≤ r.attempt := by
  obtain ⟨hmem, hkey, hlive⟩ := mem_live.mp hr
  rcases hs.cases hmem hr' (hkey.trans hpair.symm) with rfl | ⟨-, hsup⟩ | ⟨hlt, -⟩
  · exact le_refl _
  · exact absurd hlive hsup
  · omega

theorem RowsSound.live_cases (pair : PatchsetID × String) :
    (s.live pair = [] ∧ ∀ r ∈ s.runs, r.key.pair ≠ pair) ∨ ∃ r, s.live pair = [r] := by
  match hlive : s.live pair with
  | [] =>
    refine .inl ⟨rfl, fun r hr hpair => ?_⟩
    apply hs.latest r hr
    rw [hpair, hlive]
  | [r] => exact .inr ⟨r, rfl⟩
  | r :: r' :: rest =>
    exfalso
    have hpw : (s.live pair).Pairwise fun r r' =>
        r.key.pair = r'.key.pair → r.attempt < r'.attempt ∧ r.supersededBy ≠ none :=
      hs.order.sublist filter_sublist
    have hr : r ∈ s.live pair := by rw [hlive]; simp
    have hr' : r' ∈ s.live pair := by rw [hlive]; simp
    rw [hlive] at hpw
    obtain ⟨-, hk, hnone⟩ := mem_live.mp hr
    obtain ⟨-, hk', -⟩ := mem_live.mp hr'
    have hfirst := (pairwise_cons.mp hpw).1 r' (by simp)
    exact (hfirst (hk.trans hk'.symm)).2 hnone

/-- The rows are rewritten and at most one is added: a new attempt of its check, the only live
one. -/
theorem RowsSound.extend (new : Option RunRow) (hruns : s'.runs = s.runs.map f ++ new.toList)
    (hps : s.patchsets.Extends s'.patchsets) (hf : ∀ r ∈ s.runs, Keeps r (f r))
    (hlive : ∀ r ∈ s.runs, r.supersededBy = none →
      (f r).supersededBy = none ∨ ∃ x ∈ new, x.key.pair = r.key.pair)
    (hnew : ∀ x ∈ new, x.supersededBy = none ∧ 1 ≤ x.attempt ∧ x.attempt ≤ s.runs.length + 1 ∧
      s'.patchsets.get x.key.patchset = some x.key.changeset ∧
      ∀ r ∈ s.runs, r.id ≠ x.id ∧
        (r.key.pair = x.key.pair →
          r.attempt < x.attempt ∧ (f r).supersededBy ≠ none)) : s'.RowsSound := by
  have hmem : ∀ r', r' ∈ s'.runs ↔ (∃ r ∈ s.runs, f r = r') ∨ r' ∈ new := by
    intro r'
    rw [hruns, mem_append, mem_map, Option.mem_toList, Option.mem_def]
  have hlen : s.runs.length + new.toList.length = s'.runs.length := by rw [hruns]; simp
  constructor
  case ids =>
    have hids : s.runs.map (RunRow.id ∘ f) = s.runs.map RunRow.id :=
      map_congr_left fun r hr => (hf r hr).id
    rw [hruns, map_append, map_map, hids]
    refine List.Nodup.append hs.ids (by cases new <;> simp) fun i hi hi' => ?_
    obtain ⟨r, hr, rfl⟩ := mem_map.mp hi
    obtain ⟨x, hx, hid⟩ := mem_map.mp hi'
    exact ((hnew x (Option.mem_toList.mp hx)).2.2.2.2 r hr).1 hid.symm
  case order =>
    rw [hruns, pairwise_append, pairwise_map]
    refine ⟨hs.order.imp_of_mem fun {r r'} hr hr' h hpair => ?_, by cases new <;> simp,
      fun r' hr' x hx hpair => ?_⟩
    · rw [(hf r hr).key, (hf r' hr').key] at hpair
      rw [(hf r hr).attempt, (hf r' hr').attempt]
      exact ⟨(h hpair).1, fun hnone => (h hpair).2 ((hf r hr).superseded hnone)⟩
    · obtain ⟨r, hr, rfl⟩ := mem_map.mp hr'
      rw [(hf r hr).key] at hpair
      rw [(hf r hr).attempt]
      exact ((hnew x (Option.mem_toList.mp hx)).2.2.2.2 r hr).2 hpair
  case latest =>
    intro r' hr'
    rcases (hmem r').mp hr' with ⟨r, hr, rfl⟩ | hx
    · obtain ⟨x, hx⟩ := exists_mem_of_ne_nil _ (hs.latest r hr)
      obtain ⟨hxmem, hxkey, hxnone⟩ := mem_live.mp hx
      rw [(hf r hr).key, ← hxkey]
      rcases hlive x hxmem hxnone with hnone | ⟨y, hy, hpair⟩
      · refine ne_nil_of_mem (mem_live.mpr ⟨(hmem _).mpr (.inl ⟨x, hxmem, rfl⟩), ?_, hnone⟩)
        rw [(hf x hxmem).key]
      · exact ne_nil_of_mem (mem_live.mpr ⟨(hmem y).mpr (.inr hy), hpair, (hnew y hy).1⟩)
    · exact ne_nil_of_mem (mem_live.mpr ⟨hr', rfl, (hnew r' hx).1⟩)
  case bound =>
    intro r' hr'
    rcases (hmem r').mp hr' with ⟨r, hr, rfl⟩ | hx
    · have hb := hs.bound r hr
      rw [(hf r hr).attempt]
      omega
    · obtain ⟨-, hlow, hhigh, -⟩ := hnew r' hx
      rw [Option.mem_def.mp hx, Option.toList_some, length_singleton] at hlen
      omega
  case owner =>
    intro r' hr'
    rcases (hmem r').mp hr' with ⟨r, hr, rfl⟩ | hx
    · rw [(hf r hr).key]
      exact hps _ _ (hs.owner r hr)
    · exact (hnew r' hx).2.2.2.1

theorem RowsSound.of_runs (hruns : s'.runs = s.runs) (hps : s.patchsets.Extends s'.patchsets) :
    s'.RowsSound :=
  hs.extend (fun r => r) none (by rw [hruns]; simp) hps (fun r _ => .refl r) (fun _ _ h => .inl h) nofun

end

theorem nextAttempt_singleton {n : Int} (hlow : 1 ≤ n) (hhigh : n < 2 ^ 31 - 1) :
    nextAttempt [n] = n + 1 := by
  have hwrap : int32 (n + 1) = n + 1 := by
    rw [int32, Int.bmod_def]
    omega
  simp [nextAttempt, hlow, hwrap]

-- Behind the last number of an `int32` comes the lowest one, so the number of runs has to be
-- bounded.
example : nextAttempt [2 ^ 31 - 1] = -2 ^ 31 := by decide +kernel

/-! ## The commits -/

/-- What a state must keep: the rows and the locks. -/
structure AttemptsSound (s : CheckState) : Prop where
  rows : s.RowsSound
  locks : s.LocksSound

variable {key : CheckKey} {status : RunStatus}

theorem keeps_withStatus (exitCode : Int) (summary : String) (hacc : r.accepts status = true) :
    Keeps r (r.withStatus status exitCode summary) where
  id := rfl
  key := rfl
  attempt := rfl
  superseded h := h
  ended h := by
    simp only [RunRow.accepts, decide_eq_true_eq] at hacc
    rw [hacc.1] at h
    cases h

theorem keeps_cancel {changeset : ChangesetID} {patchset : PatchsetID}
    (hopen : r.isOpenBefore changeset patchset = true) : Keeps r r.cancel where
  id := rfl
  key := rfl
  attempt := rfl
  superseded h := h
  ended h := by
    simp only [RunRow.isOpenBefore, decide_eq_true_eq] at hopen
    rcases hopen.2.2.2 with hq | hq <;> rw [hq] at h <;> cases h

/-- The row `CreateCheckRun` inserts. -/
def newRow (id : RunID) (key : CheckKey) (status : RunStatus) (attempt : Int) : RunRow where
  id := id
  key := key
  attempt := attempt
  supersededBy := none
  status := status
  exitCode := none
  summary := ""

/-- The runs before the new one, superseded by it. -/
def supersede (pair : PatchsetID × String) (id : RunID) (r : RunRow) : RunRow :=
  if r.isLive pair then { r with supersededBy := some id } else r

theorem keeps_supersede (pair : PatchsetID × String) (id : RunID) (r : RunRow) :
    Keeps r (supersede pair id r) := by
  unfold supersede
  split_ifs
  · exact ⟨rfl, rfl, rfl, (fun h => nomatch h), fun _ => rfl⟩
  · exact .refl r

theorem supersede_dead (hpair : r.key.pair = pair) : (supersede pair id r).supersededBy ≠ none := by
  unfold supersede
  split_ifs with hlive
  · simp
  · simp only [RunRow.isLive, decide_eq_true_eq, not_and] at hlive
    exact hlive hpair

theorem supersede_of_ne (hpair : r.key.pair ≠ pair) : supersede pair id r = r := by
  unfold supersede
  simp [RunRow.isLive, hpair]

variable {attempt : Int}

section

variable (hs : s.AttemptsSound)
include hs

theorem AttemptsSound.takes (h : Takes a t s s') : s'.AttemptsSound :=
  ⟨hs.rows.of_runs h.runs (h.moves.patchsets ▸ .refl _), h.locks⟩

/-- Rows that the transaction has locked are rewritten, and the transaction ends. -/
theorem AttemptsSound.rewrite {f : RunRow → RunRow} (hlock : ∀ id ∈ ids, s.rowLock id = some t)
    (hf : ∀ r ∈ s.runs, r.id ∈ ids → Keeps r (f r))
    (hlive : ∀ r, (f r).supersededBy = r.supersededBy) :
    Moves t s ((s.release t).rewrite ids f) ∧ ((s.release t).rewrite ids f).AttemptsSound := by
  have hkeeps : ∀ r ∈ s.runs, Keeps r (if r.id ∈ ids then f r else r) ∧
      ((if r.id ∈ ids then f r else r) = r ∨ s.rowLock r.id = some t) := by
    intro r hr
    split_ifs with hmem
    · exact ⟨hf r hr hmem, .inr (hlock r.id hmem)⟩
    · exact ⟨.refl r, .inl rfl⟩
  have hruns : ((s.release t).rewrite ids f).runs =
      s.runs.map (fun r => if r.id ∈ ids then f r else r) ++ [] := by simp [CheckState.rewrite, release]
  have hmoves : Moves t s ((s.release t).rewrite ids f) :=
    moves_release _ [] rfl rfl rfl rfl hruns hkeeps (by simp)
  refine ⟨hmoves, hs.rows.extend _ none hruns (.refl _) (fun r hr => (hkeeps r hr).1) ?_ nofun,
    hs.locks.ends hmoves (release_txs t s)⟩
  refine fun r _ h => .inl ?_
  split_ifs
  · exact (hlive r).trans h
  · exact h

variable {summary : String} {exitCode : Int}

theorem AttemptsSound.updating_row (htx : s.txs t = some (.updating id key status exitCode summary))
    (hr : r ∈ s.runs) (hid : r.id = id) : r.key = key ∧ r.accepts status = true := by
  obtain ⟨-, r', hr', hid', hkey, hacc⟩ := hs.locks t _ htx
  have heq : r = r' := hs.rows.eq_of_id hr hr' (hid.trans hid'.symm)
  subst heq
  exact ⟨hkey, hacc⟩

theorem commitUpdate_written (htx : s.txs t = some (.updating id key status exitCode summary)) :
    Moves t s ((s.release t).rewrite [id] fun r => r.withStatus status exitCode summary) ∧
      ((s.release t).rewrite [id] fun r => r.withStatus status exitCode summary).AttemptsSound := by
  refine hs.rewrite (fun i hi => ?_) (fun r hr hid => ?_) fun _ => rfl
  · rw [mem_singleton.mp hi]
    exact (hs.locks t _ htx).1
  · exact keeps_withStatus _ _ (hs.updating_row htx hr (mem_singleton.mp hid)).2

theorem commitUpdate_moves (t : TxID) (reporter : Option Subject) :
    Moves t s (s.commitUpdate t reporter) ∧ (s.commitUpdate t reporter).AttemptsSound := by
  unfold commitUpdate
  split
  · rename_i id key status exitCode summary htx
    have hwritten := commitUpdate_written hs htx
    split
    · exact hwritten
    · have htakes : Takes (.rollback t) t s _ := takes_rollback hs.locks
      exact ⟨htakes.moves, hs.takes htakes⟩
    · -- the result is in another table
      obtain ⟨hmoves, hrows, hlocks⟩ := hwritten
      exact ⟨{ hmoves with }, { hrows with }, fun u tx hu => by cases tx <;> exact hlocks u _ hu⟩
  · exact ⟨.refl t s, hs⟩

theorem commitCancel_moves (t : TxID) :
    Moves t s (s.commitCancel t) ∧ (s.commitCancel t).AttemptsSound := by
  unfold commitCancel
  split
  · rename_i changeset patchset written htx
    have hheld := hs.locks t _ htx
    refine hs.rewrite (fun id hid => (hheld id hid).1) (fun r hr hid => ?_) fun _ => rfl
    obtain ⟨-, r', hr', hid', hopen⟩ := hheld r.id hid
    rw [hs.rows.eq_of_id hr hr' hid'.symm]
    exact keeps_cancel hopen
  · exact ⟨.refl t s, hs⟩

section

variable (htx : s.txs t = some (.counted key status attempt))
include htx

section

variable (hroom : s.runs.length < 2 ^ 31 - 1)
include hroom

/-- The attempt a create transaction has counted: one more than any attempt of its check. -/
theorem AttemptsSound.counted :
    1 ≤ attempt ∧ attempt ≤ s.runs.length + 1 ∧
      (∀ r ∈ s.runs, r.key.pair = key.pair → r.attempt < attempt) ∧
      (¬ 1 < attempt → ∀ r ∈ s.runs, r.key.pair ≠ key.pair) := by
  obtain ⟨-, -, -, hattempt⟩ := hs.locks t _ htx
  rcases hs.rows.live_cases key.pair with ⟨hnil, hnone⟩ | ⟨r, hlive⟩
  · rw [hnil] at hattempt
    have hone : attempt = 1 := hattempt
    refine ⟨by omega, by omega, fun r hr hpair => absurd hpair (hnone r hr), fun _ => hnone⟩
  · have hr : r ∈ s.live key.pair := by rw [hlive]; simp
    obtain ⟨hlow, hhigh⟩ := hs.rows.bound r (mem_live.mp hr).1
    have hnext : attempt = r.attempt + 1 := by
      rw [hattempt, hlive]
      exact nextAttempt_singleton hlow (by omega)
    refine ⟨by omega, by omega, fun r' hr' hpair => ?_, fun h => by omega⟩
    have hle := hs.rows.le_of_live hr hr' hpair
    omega

/-- `CreateCheckRun` commits: the runs of the check are superseded and the new one is added. -/
theorem commitCreate_eq (hnew : ∀ r ∈ s.runs, r.id ≠ id) :
    s.commitCreate t id =
      { s.release t with
        runs := s.runs.map (supersede key.pair id) ++ [newRow id key status attempt] } := by
  obtain ⟨-, -, hrows, -⟩ := hs.locks t _ htx
  obtain ⟨-, -, -, hfirst⟩ := hs.counted htx hroom
  have hrow : s.row id = none := by
    rw [row, List.find?_eq_none]
    intro r hr
    simpa using hnew r hr
  have hfree : ¬ (1 < attempt ∧ ((s.live key.pair).any fun r => s.isLockedFor t r.id) = true) := by
    rintro ⟨-, hany⟩
    obtain ⟨r, hr, hlocked⟩ := any_eq_true.mp hany
    simp [isLockedFor, hrows r hr] at hlocked
  unfold commitCreate
  rw [htx]
  dsimp only
  rw [hrow, if_neg hfree]
  by_cases hmore : 1 < attempt
  · rw [if_pos hmore]
    rfl
  · -- the first attempt supersedes nothing, and there is nothing to supersede
    have hsame : s.runs.map (supersede key.pair id) = s.runs := by
      rw [map_congr_left fun r hr => supersede_of_ne (hfirst hmore r hr)]
      simp
    rw [if_neg hmore, hsame]
    rfl

theorem commitCreate_rows (hnew : ∀ r ∈ s.runs, r.id ≠ id) (hps : s'.patchsets = s.patchsets)
    (hruns : s'.runs = s.runs.map (supersede key.pair id) ++ [newRow id key status attempt]) :
    s'.RowsSound := by
  obtain ⟨hlow, hhigh, habove, -⟩ := hs.counted htx hroom
  obtain ⟨-, hpatchset, -, -⟩ := hs.locks t _ htx
  refine hs.rows.extend _ (some (newRow id key status attempt)) hruns (hps ▸ .refl _)
    (fun r _ => keeps_supersede key.pair id r) (fun r _ hnone => ?_) ?_
  · by_cases hpair : r.key.pair = key.pair
    · exact .inr ⟨_, rfl, hpair.symm⟩
    · exact .inl (by rw [supersede_of_ne hpair, hnone])
  · rintro x ⟨⟩
    exact ⟨rfl, hlow, hhigh, hps ▸ hpatchset,
      fun r hr => ⟨hnew r hr, fun hpair => ⟨habove r hr hpair, supersede_dead hpair⟩⟩⟩

end

end

/-- `CreateCheckRun` waits, fails as its id is taken, or adds its run. -/
theorem commitCreate_cases (t : TxID) (id : RunID) (hroom : s.runs.length < 2 ^ 31 - 1) :
    s.commitCreate t id = s ∨ s.commitCreate t id = s.release t ∨
      ∃ key status attempt, s.txs t = some (.counted key status attempt) ∧
        (∀ r ∈ s.runs, r.id ≠ id) ∧
        s.commitCreate t id =
          { s.release t with
            runs := s.runs.map (supersede key.pair id) ++ [newRow id key status attempt] } := by
  match htx : s.txs t with
  | some (.counted key status attempt) =>
    by_cases hnew : ∀ r ∈ s.runs, r.id ≠ id
    · exact .inr (.inr ⟨key, status, attempt, rfl, hnew, commitCreate_eq hs htx hroom hnew⟩)
    · push Not at hnew
      obtain ⟨r, hr, hid⟩ := hnew
      have hrow : (s.row id).isSome = true :=
        List.find?_isSome.mpr ⟨r, hr, by simpa using hid⟩
      exact .inr (.inl (by simp [commitCreate, htx, hrow]))
  | none | some (.creating _ _) | some (.updating _ _ _ _ _) | some (.canceling _ _ _ _) =>
    exact .inl (by simp [commitCreate, htx])

theorem commitCreate_moves (t : TxID) (id : RunID) (hroom : s.runs.length < 2 ^ 31 - 1) :
    Moves t s (s.commitCreate t id) ∧ (s.commitCreate t id).AttemptsSound := by
  rcases commitCreate_cases hs t id hroom with
    hwait | hfail | ⟨key, status, attempt, htx, hnew, hcommit⟩
  · rw [hwait]
    exact ⟨.refl t s, hs⟩
  · rw [hfail]
    have htakes : Takes (.rollback t) t s _ := takes_rollback hs.locks
    exact ⟨htakes.moves, hs.takes htakes⟩
  · rw [hcommit]
    obtain ⟨hlock, -, hrows, -⟩ := hs.locks t _ htx
    have hmoves : Moves t s { s.release t with
        runs := s.runs.map (supersede key.pair id) ++ [newRow id key status attempt] } := by
      refine moves_release (supersede key.pair id) [newRow id key status attempt] rfl rfl rfl rfl
        rfl (fun r hr => ⟨keeps_supersede _ _ r, ?_⟩) (fun r hr => ?_)
      · by_cases hlive : r.isLive key.pair = true
        · exact .inr (hrows r (mem_filter.mpr ⟨hr, hlive⟩))
        · exact .inl (if_neg hlive)
      · rw [mem_singleton.mp hr]
        exact hlock
    exact ⟨hmoves, commitCreate_rows hs htx hroom hnew rfl rfl,
      hs.locks.ends hmoves (release_txs t s)⟩

end

/-! ## Every run -/

theorem AttemptsSound.of_eq (hs : s.AttemptsSound) (hruns : s'.runs = s.runs)
    (htxs : s'.txs = s.txs) (hcheck : s'.checkLock = s.checkLock) (hrow : s'.rowLock = s.rowLock)
    (hps : s.patchsets.Extends s'.patchsets) : s'.AttemptsSound := by
  refine ⟨hs.rows.of_runs hruns hps, fun t tx htx => ?_⟩
  rw [htxs] at htx
  exact (hs.locks t tx htx).mono (fun _ h => hcheck ▸ h) (fun _ h => hrow ▸ h) hps
    (fun r hr _ => hruns ▸ hr) fun pair _ _ => by rw [live, live, hruns]

/-- A step keeps the rows: each is still there, and what ended keeps its status. -/
def RowsKept (s s' : CheckState) : Prop := ∀ r ∈ s.runs, ∃ r' ∈ s'.runs, Keeps r r'

theorem Moves.rowsKept (h : Moves t s s') : RowsKept s s' := by
  intro r hr
  obtain ⟨f, new, hruns, hf, -⟩ := h.runs
  refine ⟨f r, ?_, (hf r hr).1⟩
  rw [hruns]
  exact mem_append_left _ (mem_map.mpr ⟨r, hr, rfl⟩)

end CheckState

/-- The last statement of a `CreateCheckRun`. -/
def CheckAction.isCommitCreate : CheckAction → Bool
  | .commitCreate _ _ => true
  | _ => false

namespace CheckState

theorem step_sound {s : CheckState} (hs : s.AttemptsSound) (a : CheckAction)
    (hroom : a.isCommitCreate = true → s.runs.length < 2 ^ 31 - 1) :
    RowsKept s (s.step a) ∧ (s.step a).AttemptsSound := by
  cases ht : taker a with
  | some t => exact ⟨(takes_step ht hs.locks).moves.rowsKept, hs.takes (takes_step ht hs.locks)⟩
  | none =>
    cases a with
    | addPatchset =>
      exact ⟨fun r hr => ⟨r, hr, .refl r⟩, hs.of_eq rfl rfl rfl rfl (Table.extends_insertNew _ _ _)⟩
    | commitCreate t id => exact (commitCreate_moves hs t id (hroom rfl)).imp_left Moves.rowsKept
    | commitUpdate t reporter => exact (commitUpdate_moves hs t reporter).imp_left Moves.rowsKept
    | commitCancel t => exact (commitCancel_moves hs t).imp_left Moves.rowsKept
    | report =>
      rw [step, report]
      split
      · exact ⟨fun r hr => ⟨r, hr, .refl r⟩, hs⟩
      · exact ⟨fun r hr => ⟨r, hr, .refl r⟩, hs.of_eq rfl rfl rfl rfl fun _ _ h => h⟩
    | _ => cases ht

end CheckState

end GitSlice
