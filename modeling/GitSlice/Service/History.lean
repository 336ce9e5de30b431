import GitSlice.Service.Views

/-! # Calls along a history
A history of the service is the list of its steps. `callsSound` says what a call holds at any point
of a history: a changeset as it was at an earlier point (`ReadBy`), and results that `submitExtras`
gave for it at a point in between (`ExtrasFor`). `CallsSound.extras` adds that these are for the
patchset the call admits, when the call is pinned to it. -/

namespace GitSlice

/-- The service after these steps. -/
def after (srv : Server) (root : Node) (as : List ServiceAction) : Service :=
  Machine.run (serve srv) (Service.start root) as

theorem after_append_singleton (srv : Server) (root : Node) (as : List ServiceAction)
    (a : ServiceAction) : after srv root (as ++ [a]) = serve srv (after srv root as) a :=
  Machine.run_append _ _ _ _

section Statements

variable (srv : Server) (root : Node) (as : List ServiceAction)

/-- A call read the changeset and saw this. -/
def ReadBy (id : ChangesetID) (cs : ChangesetView) : Prop :=
  ∃ before, before <+: as ∧ getChangeset (after srv root before).store id = some cs

/-- `submitExtras` gave these results for the changeset as it was read. -/
def ExtrasFor (id : ChangesetID) (cs : ChangesetView) (extra : List (String × String)) : Prop :=
  ∃ before, before <+: as ∧ ReadBy srv root before id cs ∧
    submitExtras srv (after srv root before).store (after srv root before).checkRuns cs = .ok extra

end Statements

section

variable {srv : Server} {root : Node} {as as' : List ServiceAction} {s s' : Service}
  {id : ChangesetID} {cs : ChangesetView}

theorem ReadBy.mono (h : ReadBy srv root as id cs) (hp : as <+: as') :
    ReadBy srv root as' id cs := by
  obtain ⟨before, hbefore, hcs⟩ := h
  exact ⟨before, hbefore.trans hp, hcs⟩

theorem ExtrasFor.mono {extra : List (String × String)} (h : ExtrasFor srv root as id cs extra)
    (hp : as <+: as') : ExtrasFor srv root as' id cs extra := by
  obtain ⟨before, hbefore, hread⟩ := h
  exact ⟨before, hbefore.trans hp, hread⟩

theorem ReadBy.id_eq (h : ReadBy srv root as id cs) : cs.id = id := by
  obtain ⟨before, -, hcs⟩ := h
  exact (getChangeset_some hcs).1

/-- What a call holds is what it read, and what was computed from that. -/
def CallSound (srv : Server) (root : Node) (as : List ServiceAction) (s : State) :
    SubmitStage → Prop
  | .read call cs => ReadBy srv root as call.changeset cs ∧ Viewed s cs
  | .checked call cs extra => ExtrasFor srv root as call.changeset cs extra ∧ Viewed s cs
  | .latest loop cs => ReadBy srv root as loop.call.changeset cs ∧ Viewed s cs
  | .merging loop cs _ _ =>
    (ReadBy srv root as loop.call.changeset cs ∧ Viewed s cs) ∧ cs.row.currentPatchset.isSome
  | .merged loop p => ∃ ps, s.patchsets.get p = some ps ∧ ps.changeset = loop.call.changeset
  | .refreshed loop p cs =>
    (ReadBy srv root as loop.call.changeset cs ∧ Viewed s cs) ∧ p ∈ cs.patchsets.map Prod.fst
  | .ready loop p cs extra =>
    (ExtrasFor srv root as loop.call.changeset cs extra ∧ Viewed s cs) ∧
      p ∈ cs.patchsets.map Prod.fst
  | .idle | .stale _ | .done _ | .failed _ _ => True

variable {a : ServiceAction} {stage : SubmitStage}

theorem CallSound.serve (hm : Serving srv s a s')
    (h : CallSound srv root as s.store stage) (hp : as <+: as') :
    CallSound srv root as' s'.store stage := by
  cases stage with
  | read | checked | latest => exact ⟨h.1.mono hp, hm.viewed h.2⟩
  | merging | refreshed | ready => exact ⟨⟨h.1.1.mono hp, hm.viewed h.1.2⟩, h.2⟩
  | merged =>
    obtain ⟨ps, hps, hchangeset⟩ := h
    exact ⟨ps, hm.extends _ _ hps, hchangeset⟩
  | idle | stale | done | failed => trivial

variable {ps : Patchset}

theorem Uploads.current {now : Time} {fresh : PatchsetID} {loop : MergeLoop} {head : CommitID}
    {r : Rebased} {slice : Slice} {store : State} {id : PatchsetID}
    (h : Uploads srv s now fresh loop cs ps head r slice store id) (hs : CoresSound s.store) :
    ∃ ps', store.patchsets.get id = some ps' ∧ ps'.changeset = cs.id := by
  obtain ⟨c, baseTree, v, resultTree, hc, -, -, -, -, -, hend⟩ := addPatchset_ok h.added
  rcases hend with ⟨rfl, hsame⟩ | ⟨rfl, -, rfl⟩
  · -- the merge is the current patchset again
    have hblobs := putBlobs_sameCores s.store r.blobs
    have hcurrent : c.currentPatchset = some id := (Option.filter_eq_some_iff.mp hsame).1
    obtain ⟨ps', hps', hchangeset, -⟩ := hs.current cs.id c.core id
      (by rw [← hblobs.core]; exact State.core_eq_some hc) hcurrent
    exact ⟨ps', by rw [hblobs.patchsets, hps'], hchangeset⟩
  · exact ⟨_, Table.get_set_self _ _ _, rfl⟩

theorem readBy_now (h : getChangeset (after srv root as).store id = some cs) :
    ReadBy srv root as id cs :=
  ⟨as, List.prefix_refl as, h⟩

variable {k : CallID}

theorem StageMove.sound {stage' : SubmitStage}
    (hm : StageMove srv (after srv root as) k a stage stage')
    (hs : CoresSound (after srv root as).store)
    (h : CallSound srv root as (after srv root as).store stage) :
    CallSound srv root as (after srv root as).store stage' := by
  cases hm with
  | idle | failed | unmerged => trivial
  | read _ _ hcs | latest _ _ _ _ hcs => exact ⟨readBy_now hcs, viewed_getChangeset hs hcs⟩
  | checked now fresh call cs extra hextra => exact ⟨⟨as, List.prefix_refl as, h.1, hextra⟩, h.2⟩
  | merging now fresh loop cs ps head htarget => exact ⟨h, h.2.isSome_of_mergeTarget htarget⟩
  | refreshed now fresh loop p cs hcs =>
    refine ⟨⟨readBy_now hcs, viewed_getChangeset hs hcs⟩, ?_⟩
    obtain ⟨ps, hps, hchangeset⟩ := h
    obtain ⟨-, -, hlist⟩ := getChangeset_some hcs
    rw [hlist]
    exact List.mem_map.mpr ⟨(p, ps), mem_listPatchsets.mpr ⟨hps, hchangeset⟩, rfl⟩
  | ready now fresh loop p cs extra hextra => exact ⟨⟨⟨as, List.prefix_refl as, h.1.1, hextra⟩, h.1.2⟩, h.2⟩

/-- The patchsets are numbered, and the calls hold what they read. -/
structure CallsSound (srv : Server) (root : Node) (as : List ServiceAction) : Prop where
  cores : CoresSound (after srv root as).store
  calls : ∀ k, CallSound srv root as (after srv root as).store ((after srv root as).calls k)

theorem Serving.callsSound (hm : Serving srv (after srv root as) a s') (h : CallsSound srv root as)
    (k : CallID) : CallSound srv root (as ++ [a]) s'.store (s'.calls k) := by
  have hp : as <+: as ++ [a] := List.prefix_append as [a]
  by_cases hmoved : s'.calls k = (after srv root as).calls k
  · rw [hmoved]
    exact (h.calls k).serve hm hp
  cases hm' : hm with
  | refused | store | checkRun | checkRunStatus => exact absurd rfl hmoved
  | move a j stage hmove =>
    obtain rfl := Service.eq_of_calls_setCall_ne hmoved
    have hsound := (hmove.sound h.cores (h.calls k)).serve hm hp
    rwa [Service.calls_setCall_self]
  | submit j now fresh req hreq =>
    obtain rfl := Service.eq_of_calls_setCall_ne hmoved
    rw [Service.calls_setCall_self]
    obtain ⟨p, hdone⟩ | ⟨loop, hstale⟩ | ⟨note, e, hfailed⟩ :=
      afterSubmit_cases hreq (after srv root as).store now
    · rw [hdone]
      trivial
    · rw [hstale]
      trivial
    · rw [hfailed]
      trivial
  | unmergeable =>
    obtain rfl := Service.eq_of_calls_setCall_ne hmoved
    rw [Service.calls_setCall_self]
    trivial
  | merge j now fresh loop cs ps head r slice store id hstage hup =>
    obtain rfl := Service.eq_of_calls_setCall_ne hmoved
    rw [Service.calls_setCall_self]
    have hcall : CallSound srv root as (after srv root as).store (.merging loop cs ps head) :=
      hstage ▸ h.calls k
    obtain ⟨ps', hps', hchangeset⟩ := hup.current h.cores
    exact ⟨ps', hps', hchangeset.trans hcall.1.1.id_eq⟩

/-- **What calls hold**, at any point of any history. -/
theorem callsSound (srv : Server) (root : Node) (as : List ServiceAction) :
    CallsSound srv root as := by
  induction as using List.reverseRecOn with
  | nil => exact ⟨coresSound_start root, fun _ => trivial⟩
  | append_singleton as a ih =>
    have hm := serve_serving srv (after srv root as) a
    refine ⟨?_, ?_⟩
    · rw [after_append_singleton]
      exact hm.coresSound ih.cores
    · rw [after_append_singleton]
      exact hm.callsSound ih

/-- The patchset a call asks for. -/
def SubmitCall.named (call : SubmitCall) (cs : ChangesetView) : Option PatchsetID :=
  if call.stack then cs.row.currentPatchset else call.expected

/-- A call that is about to submit for the first time asks for a patchset it has seen, or the
changeset still has the current patchset it had. -/
def SubmitStage.Pinned (s : State) : SubmitStage → Prop
  | .checked call cs _ =>
    (∃ p ∈ call.named cs, p ∈ cs.patchsets.map Prod.fst) ∨
      ∀ c ∈ s.core cs.id, c.currentPatchset = cs.row.currentPatchset
  | _ => True

instance (s : State) (stage : SubmitStage) : Decidable (stage.Pinned s) := by
  unfold SubmitStage.Pinned
  split <;> infer_instance

theorem SubmitCall.firstExpected_mem {call : SubmitCall}
    (h : ∃ p ∈ call.named cs, p ∈ cs.patchsets.map Prod.fst) :
    ∃ p, call.firstExpected cs = some p ∧ p ∈ cs.patchsets.map Prod.fst := by
  obtain ⟨p, hp, hmem⟩ := h
  unfold SubmitCall.named at hp
  unfold SubmitCall.firstExpected
  split_ifs at hp ⊢
  · exact ⟨p, hp, hmem⟩
  · unfold acceptedExpectedPatchset
    split
    · rename_i id ps hexpected hcurrent
      split_ifs
      · exact ⟨id, rfl, List.mem_map.mpr ⟨_, ChangesetView.mem_of_currentPatchset hcurrent, rfl⟩⟩
      · exact ⟨p, hexpected ▸ hp, hmem⟩
    · exact ⟨p, hp, hmem⟩

theorem CallsSound.extras (h : CallsSound srv root as)
    (hv : ((after srv root as).calls k).Pinned (after srv root as).store) {req : SubmitRequest}
    (hreq : ((after srv root as).calls k).submission = some req) {a : Admission}
    (ha : Admits (after srv root as).store req a ps) :
    req.bypassRequirements = false ∧ ∃ cs, ExtrasFor srv root as req.changeset cs req.extra ∧
      Viewed (after srv root as).store cs ∧ cs.row.currentPatchset = some a.patchset := by
  obtain ⟨hc, -, -, -, hexpected, hcurrent, -, -⟩ := openForSubmit_ok ha.opened
  -- a call that names a patchset it has seen
  have hseen : ∀ {cs : ChangesetView} {p : PatchsetID}, cs.id = req.changeset →
      Viewed (after srv root as).store cs → req.expected = some p →
      p ∈ cs.patchsets.map Prod.fst → cs.row.currentPatchset = some a.patchset := by
    intro cs p hid hview hp hmem
    have hap : a.changeset.currentPatchset = some p := by
      rw [hexpected (by rw [hp]; rfl), hp]
    rw [hcurrent] at hap
    cases hap
    have hcore : (after srv root as).store.core cs.id = some a.changeset.core := by
      rw [hid]
      exact State.core_eq_some hc
    exact hview.current_of_mem hcore hcurrent hmem
  have hcall := h.calls k
  cases hstage : (after srv root as).calls k with
  | checked call cs =>
    rw [hstage] at hcall hreq hv
    cases hreq
    obtain ⟨hextras, hview⟩ := hcall
    obtain ⟨before, hbefore, hread, hx⟩ := id hextras
    refine ⟨rfl, cs, hextras, hview, ?_⟩
    rcases hv with hnamed | hsame
    · obtain ⟨p, hp, hmem⟩ := SubmitCall.firstExpected_mem hnamed
      exact hseen hread.id_eq hview hp hmem
    · rw [← hcurrent]
      exact (hsame a.changeset.core (by rw [hread.id_eq]; exact State.core_eq_some hc)).symm
  | ready loop p cs =>
    rw [hstage] at hcall hreq
    cases hreq
    obtain ⟨⟨hextras, hview⟩, hmem⟩ := hcall
    obtain ⟨before, -, hread, -⟩ := id hextras
    exact ⟨rfl, cs, hextras, hview, hseen hread.id_eq hview rfl hmem⟩
  | _ =>
    rw [hstage] at hreq
    cases hreq

end

end GitSlice
