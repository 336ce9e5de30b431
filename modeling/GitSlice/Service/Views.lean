import GitSlice.Library.Lists
import GitSlice.Store.Cores
import GitSlice.Service.Calls

/-! # What a call has read
A call goes on with a changeset it read some steps ago. This module says what of it is still true
(`Viewed`): the patchsets it saw are there as it saw them, and the current patchset is still the one
it saw or is one it did not see, since only a push changes it, to a patchset that is new. -/

namespace GitSlice

open List

/-! ## Reading a changeset -/

variable {id : ChangesetID} {s : State}
theorem mem_listPatchsets {r : PatchsetID × Patchset} :
    r ∈ listPatchsets s id ↔ s.patchsets.get r.1 = some r.2 ∧ r.2.changeset = id := by
  rw [listPatchsets, mem_insertionSort, mem_filter, decide_eq_true_eq,
    ← Table.mem_rows_iff]

theorem pairwise_listPatchsets (h : CoresSound s) (id : ChangesetID) :
    (listPatchsets s id).Pairwise fun r r' => r.2.number < r'.2.number := by
  refine strictly_insertionSort_of_key (fun r => r.2.number) (fun _ _ => Iff.rfl)
    ((List.Nodup.of_map _ s.patchsets.nodup).filter _) ?_
  rintro ⟨p, ps⟩ hp ⟨q, qs⟩ hq heq
  simp only [mem_filter, decide_eq_true_eq, Table.mem_rows_iff] at hp hq
  obtain rfl := h.numbers p q ps qs hp.1 hq.1 (hp.2.trans hq.2.symm) heq
  rw [Option.some.inj (hp.1.symm.trans hq.1)]

variable {cs : ChangesetView}

theorem getChangeset_some (h : getChangeset s id = some cs) :
    cs.id = id ∧ s.changesets.get id = some cs.row ∧ cs.patchsets = listPatchsets s id := by
  rw [getChangeset, Option.map_eq_some_iff] at h
  obtain ⟨c, hc, rfl⟩ := h
  exact ⟨rfl, hc, rfl⟩

theorem ChangesetView.mem_of_currentPatchset {r : PatchsetID × Patchset}
    (h : cs.currentPatchset = some r) : r ∈ cs.patchsets := by
  rw [ChangesetView.currentPatchset, Option.or_eq_some_iff] at h
  rcases h with h | ⟨-, h⟩
  · exact mem_of_find?_eq_some h
  · exact mem_of_getLast? h

/-- What stays true of a changeset that was read. -/
structure Viewed (s : State) (cs : ChangesetView) : Prop where
  sorted : cs.patchsets.Pairwise fun r r' => r.2.number < r'.2.number
  patchsets : ∀ r ∈ cs.patchsets, s.patchsets.get r.1 = some r.2
  current : ∀ p, cs.row.currentPatchset = some p →
    ∃ ps, cs.currentPatchset = some (p, ps) ∧ (p, ps) ∈ cs.patchsets ∧
      ps.changeset = cs.id ∧ ps.number = cs.row.currentNumber
  noCurrent : cs.row.currentPatchset = none → cs.patchsets = []
  newer : ∀ p ps, s.patchsets.get p = some ps → ps.changeset = cs.id →
    (p, ps) ∈ cs.patchsets ∨ cs.row.currentNumber < ps.number
  /-- The changeset has the author and the slice it had, and the current patchset or a new one. -/
  kept : ∃ c, s.core cs.id = some c ∧ c.author = cs.row.author ∧ c.slice = cs.row.slice ∧
    cs.row.currentNumber ≤ c.currentNumber ∧
    (c.currentPatchset = cs.row.currentPatchset ∨
      ∀ p, c.currentPatchset = some p → p ∉ cs.patchsets.map Prod.fst)

theorem viewed_getChangeset (h : CoresSound s) (hcs : getChangeset s id = some cs) :
    Viewed s cs := by
  obtain ⟨hid, hrow, hlist⟩ := getChangeset_some hcs
  have hcore : s.core cs.id = some cs.row.core := by
    rw [hid]
    exact State.core_eq_some hrow
  refine ⟨hlist ▸ pairwise_listPatchsets h id, ?_, ?_, ?_, ?_,
    ⟨cs.row.core, hcore, rfl, rfl, le_rfl, .inl rfl⟩⟩
  · intro r hr
    rw [hlist] at hr
    exact (mem_listPatchsets.mp hr).1
  · intro p hp
    obtain ⟨ps, hps, hchangeset, hnumber⟩ := h.current cs.id cs.row.core p hcore hp
    have hmem : (p, ps) ∈ cs.patchsets := by
      rw [hlist, mem_listPatchsets]
      exact ⟨hps, hchangeset.trans hid⟩
    refine ⟨ps, ?_, hmem, hchangeset, hnumber⟩
    -- the search finds a row with the id, and there is one such row
    obtain ⟨r, hr⟩ : ∃ r, (cs.patchsets.find? fun r => some r.1 = cs.row.currentPatchset) = some r := by
      rw [← Option.isSome_iff_exists, List.find?_isSome]
      exact ⟨(p, ps), hmem, by simp [hp]⟩
    have hkey : some r.1 = cs.row.currentPatchset := by simpa using List.find?_some hr
    have hr1 : r.1 = p := Option.some.inj (hkey.trans hp)
    have hr2 : s.patchsets.get r.1 = some r.2 := by
      have := mem_of_find?_eq_some hr
      rw [hlist] at this
      exact (mem_listPatchsets.mp this).1
    rw [hr1, hps] at hr2
    have hrow : r = (p, ps) := Prod.ext hr1 (Option.some.inj hr2).symm
    rw [ChangesetView.currentPatchset, hr, hrow, Option.some_or]
  · intro hnone
    have hzero := h.noCurrent cs.id cs.row.core hcore hnone
    rw [hlist, eq_nil_iff_forall_not_mem]
    intro r hr
    obtain ⟨hget, hchangeset⟩ := mem_listPatchsets.mp hr
    obtain ⟨c, hc, hone, hle⟩ := h.owned r.1 r.2 hget
    rw [hchangeset, ← hid, hcore] at hc
    cases hc
    omega
  · intro p ps hps hchangeset
    left
    rw [hlist, mem_listPatchsets]
    exact ⟨hps, hchangeset.trans hid⟩

variable {c : ChangesetCore}

theorem Viewed.current_of_mem (h : Viewed s cs) (hc : s.core cs.id = some c) {p : PatchsetID}
    (hp : c.currentPatchset = some p) (hmem : p ∈ cs.patchsets.map Prod.fst) :
    cs.row.currentPatchset = some p := by
  obtain ⟨c', hc', -, -, -, hcurrent⟩ := h.kept
  rw [hc] at hc'
  cases hc'
  rcases hcurrent with hcurrent | hnew
  · rw [← hcurrent, hp]
  · exact absurd hmem (hnew p hp)

theorem Viewed.isSome_of_mergeTarget {t : State} (h : Viewed s cs) {r : Patchset × CommitID}
    (hr : mergeTarget t cs = .ok (some r)) : cs.row.currentPatchset.isSome := by
  by_contra hnone
  have hempty := h.noCurrent (Option.not_isSome_iff_eq_none.mp hnone)
  rw [mergeTarget, ChangesetView.currentPatchset, hempty] at hr
  cases hr

theorem Viewed.move {s' : State} {a : Action} (h : Viewed s cs) (hm : CoreMove s a s') :
    Viewed s' cs := by
  obtain ⟨c, hc, hauthor, hslice, hnumber, hcurrent⟩ := h.kept
  -- the steps that change neither the patchsets nor the changeset
  have hsame : s'.core cs.id = s.core cs.id → s'.patchsets = s.patchsets → Viewed s' cs := by
    intro hcore hpatchsets
    refine ⟨h.sorted, ?_, h.current, h.noCurrent, ?_, c, by rw [hcore, hc], hauthor, hslice,
      hnumber, hcurrent⟩
    · rw [hpatchsets]
      exact h.patchsets
    · rw [hpatchsets]
      exact h.newer
  cases hm with
  | kept a s' hsame' => exact hsame (by rw [hsame'.core]) hsame'.patchsets
  | created now id subject req s' hnew hcore hpatchsets =>
    refine hsame ?_ hpatchsets
    rw [hcore, Function.update_apply, if_neg]
    rintro rfl
    rw [hnew] at hc
    cases hc
  | approved _ _ _ _ _ _ _ _ hcore hpatchsets | reported _ _ _ _ _ _ _ _ _ _ _ _ hcore hpatchsets =>
    exact hsame (by rw [hcore]) hpatchsets
  | pushed now id expected patchset upload s' d blobs v baseTree resultTree hd hnew hv hpatchsets hcore =>
    refine ⟨h.sorted, ?_, h.current, h.noCurrent, ?_, ?_⟩
    · intro r hr
      rw [hpatchsets]
      exact Table.extends_set hnew _ _ _ (h.patchsets r hr)
    · intro p ps hps hid
      rw [hpatchsets] at hps
      rcases Table.get_set_cases hps with ⟨-, rfl⟩ | ⟨-, hps⟩
      · -- the new patchset has the next number
        rw [show id = cs.id from hid, hc] at hd
        cases hd
        exact .inr (Nat.lt_succ_of_le hnumber)
      · exact h.newer p ps hps hid
    · rw [hcore, Function.update_apply]
      split_ifs with hid
      · rw [hid, hd] at hc
        cases hc
        refine ⟨_, rfl, hauthor, hslice, Nat.le_succ_of_le hnumber, .inr ?_⟩
        rintro p hp hmem
        cases hp
        obtain ⟨r, hr, hrp⟩ := mem_map.mp hmem
        have hget := h.patchsets r hr
        rw [hrp, hnew] at hget
        cases hget
      · exact ⟨c, hc, hauthor, hslice, hnumber, hcurrent⟩

/-! ## The steps of the service -/

theorem putBlobs_sameCores (s : State) (blobs : List (BlobID × Blob)) :
    SameCores s (putBlobs s blobs) := by
  induction blobs generalizing s with
  | nil => exact ⟨rfl, rfl, rfl, rfl⟩
  | cons b rest ih =>
    have hput : SameCores s (step s (.putBlob b.1 b.2)) := ⟨rfl, rfl, rfl, rfl⟩
    exact hput.trans (ih _)

theorem step_addPatchset {s' : State} {now : Time} {expected : Option PatchsetID}
    {fresh r : PatchsetID} {upload : PatchsetUpload}
    (h : addPatchset s now id expected fresh upload = .ok (s', r)) :
    step s (.addPatchset now id expected fresh upload) = s' := by
  simp only [step, h, commitOrWith]

/-- The transaction by which a step of a call uploads a merge. -/
inductive MergePush (s : Service) : ServiceAction → Action → Prop where
  | mk (k : CallID) (now : Time) (fresh : PatchsetID) (loop : MergeLoop) (cs : ChangesetView)
    (ps : Patchset) (head : CommitID) (edits : List FileEdit) (slice : Slice)
    (hstage : s.calls k = .merging loop cs ps head) :
    MergePush s (.advance k now fresh) (.addPatchset now cs.id cs.row.currentPatchset fresh
      (mergeUpload loop.call.subject head edits slice))

/-- The result of a check run changes no changeset that review looks at. -/
theorem core_recordCheckResult (s : State) (now : Time) (id : ChangesetID) (patchset : PatchsetID)
    (name result : String) : (recordCheckResult s now id patchset name result).core = s.core := by
  refine core_of_update (fun k c => if k = id ∧ c.currentPatchset = some patchset then
    c.clearRequirementBlock now else c) rfl fun k c => ?_
  split_ifs
  · exact core_clearRequirementBlock c now
  · rfl

variable {srv : Server} {s s' : Service} {a : ServiceAction}

section

variable (h : Serving srv s a s')
include h

/-- What a step of the service does to what review looks at: nothing, what another call's
transaction does, the push of a merge, or the result of a check run. -/
theorem Serving.cores :
    SameCores s.store s'.store ∨
      (∃ b, (a = .store b ∨ MergePush s a b) ∧ CoreMove s.store b s'.store) ∨
      ∃ now id patchset name status result, a = .checkRunStatus now id patchset name status ∧
        (id, patchset, name) ∈ s.checkRuns ∧ status.result = some result ∧
        s'.store = recordCheckResult s.store now id patchset name result := by
  cases h with
  | refused | checkRun | move => exact .inl ⟨rfl, rfl, rfl, rfl⟩
  | checkRunStatus now id patchset name status result hrun hresult =>
    exact .inr (.inr ⟨now, id, patchset, name, status, result, rfl, hrun, hresult, rfl⟩)
  | store a => exact .inr (.inl ⟨a, .inl rfl, step_core s.store a⟩)
  | submit k now fresh req =>
    have hm := step_core s.store (.submit now req)
    generalize hstep : step s.store (.submit now req) = t at hm
    cases hm with
    | kept a s' hsame => exact .inl hsame
  | unmergeable k now fresh blobs => exact .inl (putBlobs_sameCores s.store blobs)
  | merge k now fresh loop cs ps head r slice store id hstage hup =>
    refine .inr (.inl ⟨_, .inr (.mk k now fresh loop cs ps head r.fileEdits slice hstage), ?_⟩)
    have hm := step_core (putBlobs s.store r.blobs) (.addPatchset now cs.id cs.row.currentPatchset fresh
      (mergeUpload loop.call.subject head r.fileEdits slice))
    rw [step_addPatchset hup.added] at hm
    exact hm.of_same (putBlobs_sameCores s.store r.blobs)

/-- Apart from the results of checks, a step of the service does what a transaction does. -/
theorem Serving.coreMove :
    ∃ b results, CoreMove s.store b { s'.store with checkResults := results } := by
  rcases h.cores with hsame | ⟨b, -, hm⟩ | ⟨now, id, patchset, name, status, result, -, -, -, hs⟩
  · exact ⟨.reap 0, s'.store.checkResults, .kept _ _ hsame⟩
  · exact ⟨b, s'.store.checkResults, hm⟩
  · rw [hs]
    exact ⟨.reap 0, s.store.checkResults, .kept _ _ ⟨core_recordCheckResult s.store now id patchset name result,
      rfl, rfl, rfl⟩⟩

theorem Serving.coresSound (hs : CoresSound s.store) : CoresSound s'.store := by
  obtain ⟨b, results, hm⟩ := h.coreMove
  exact { hm.sound hs with }

theorem Serving.viewed (hcs : Viewed s.store cs) : Viewed s'.store cs := by
  obtain ⟨b, results, hm⟩ := h.coreMove
  exact { hcs.move hm with }

theorem Serving.extends : s.store.patchsets.Extends s'.store.patchsets := by
  obtain ⟨b, results, hm⟩ := h.coreMove
  exact hm.extends

theorem Serving.author (hc : s.store.core id = some c) :
    ∃ c', s'.store.core id = some c' ∧ c'.author = c.author ∧ c'.slice = c.slice := by
  obtain ⟨b, results, hm⟩ := h.coreMove
  exact hm.author hc

/-- A check run is of a patchset of its changeset. -/
theorem Serving.mem_checkRuns {r : CheckRun} (hr : r ∈ s'.checkRuns) :
    r ∈ s.checkRuns ∨ hasPatchset s.store r.1 r.2.1 = true := by
  cases h with
  | checkRun id patchset name hrun =>
    rcases mem_append.mp hr with hr | hr
    · exact .inl hr
    · rw [mem_singleton.mp hr]
      exact .inr hrun
  | refused | store | checkRunStatus | move | submit | unmergeable | merge => exact .inl hr

/-- An approval that is new was made by this step. -/
theorem Serving.approval {x : Approval} (hx : x ∈ s'.store.approvals) : x ∈ s.store.approvals ∨
      ∃ now subject c, a = .store (.approve now x.changeset subject) ∧
        s.store.core x.changeset = some c ∧ c.currentPatchset = some x.patchset ∧
        x.subject = trimSpace subject := by
  rcases h.cores with hsame | ⟨b, hb, hm⟩ | ⟨now, id, patchset, name, status, result, -, -, -, hs⟩
  · rw [hsame.approvals] at hx
    exact .inl hx
  · rcases hm.approval hx with hx | ⟨now, subject, c, rfl, hc, hcurrent, hsubject⟩
    · exact .inl hx
    · rcases hb with rfl | hb
      · exact .inr ⟨now, subject, c, rfl, hc, hcurrent, hsubject⟩
      · cases hb
  · rw [hs] at hx
    exact .inl hx

/-- A result that is new was reported, or is that of a check run. -/
theorem Serving.checkResult {key : ChangesetID × PatchsetID × String}
    {st : String} (hst : s'.store.checkResults.get key = some st) :
    s.store.checkResults.get key = some st ∨
      (∃ now subject check status c, a =
        .store (.reportCheckResult now key.1 subject check status) ∧
        s.store.core key.1 = some c ∧ c.currentPatchset = some key.2.1 ∧ trimSpace check = key.2.2 ∧
        normalizeCheckStatus status = some st) ∨
      ∃ now status, a = .checkRunStatus now key.1 key.2.1 key.2.2 status ∧ key ∈ s.checkRuns ∧
        status.result = some st := by
  rcases h.cores with hsame | ⟨b, hb, hm⟩ | ⟨now, id, patchset, name, status, result, ha, hrun,
    hresult, hs⟩
  · rw [hsame.checkResults] at hst
    exact .inl hst
  · rcases hm.checkResult hst with hst | ⟨now, subject, check, status, c, rfl, hc⟩
    · exact .inl hst
    · rcases hb with rfl | hb
      · exact .inr (.inl ⟨now, subject, check, status, c, rfl, hc⟩)
      · cases hb
  · rw [hs] at hst
    rcases Table.get_set_cases hst with ⟨rfl, rfl⟩ | ⟨-, hst⟩
    · exact .inr (.inr ⟨now, status, ha, hrun, hresult⟩)
    · exact .inl hst

end

theorem afterSubmit_cases {stage : SubmitStage} {req : SubmitRequest}
    (h : stage.submission = some req)
    (s : State) (now : Time) : (∃ p, stage.afterSubmit s now = .done p) ∨
      (∃ loop, stage.afterSubmit s now = .stale loop) ∨
      ∃ note e, stage.afterSubmit s now = .failed note e := by
  cases stage with
  | checked =>
    simp only [SubmitStage.afterSubmit]
    split
    · exact .inl ⟨_, rfl⟩
    · split_ifs
      · exact .inr (.inl ⟨_, rfl⟩)
      · exact .inr (.inr ⟨_, _, rfl⟩)
  | ready =>
    simp only [SubmitStage.afterSubmit]
    split
    · exact .inl ⟨_, rfl⟩
    · split_ifs
      · exact .inr (.inl ⟨_, rfl⟩)
      · exact .inr (.inr ⟨_, _, rfl⟩)
      · exact .inr (.inr ⟨_, _, rfl⟩)
  | _ => cases h

end GitSlice
