import GitSlice.Service.Review

/-! # Submit lands what was asked for
A call that names a patchset `N` may land a merge of it that the server made. This module says which
patchsets those are (`MergedFrom`) and when a call lands nothing else (`LandsAsked`) and is not
refused for naming `N` (`RetriesAccepted`).

After a stale base the call merges whatever is current, so a patchset that somebody uploads in
between lands for `N`; a patchset may be uploaded with the kind of a server's merge; and
`acceptedExpectedPatchset` looks one patchset back, so `N` is an old patchset once the server has
merged it twice. `Unmixed` leaves out the first two, and `Alone` the last, with the races that
change the current patchset under a call. -/

namespace GitSlice

open List Option

/-! ## Merges of the server -/

/-- `b` is the patchset after `a`, made as the server makes its merges. -/
def Follows (s : State) (a b : PatchsetID) : Prop :=
  ∃ pa pb, s.patchsets.get a = some pa ∧ s.patchsets.get b = some pb ∧
    pa.changeset = pb.changeset ∧ pb.number = pa.number + 1 ∧ pb.kind = submitMergeKind

/-- The server merged `a` into `b`. A merge that changes nothing is `a` again. -/
def ServerMerge (s : Service) (a b : PatchsetID) : Prop :=
  (a, b) ∈ s.merges ∧ (a = b ∨ Follows s.store a b)

/-- The second patchset is the first one, or the server made it by merging that, once or several
times. -/
def MergedFrom (s : Service) : PatchsetID → PatchsetID → Prop :=
  Relation.ReflTransGen (ServerMerge s)

/-- The call of a stage. -/
def SubmitStage.call? : SubmitStage → Option SubmitCall
  | .read call _ | .checked call _ _ => some call
  | .stale loop | .latest loop _ | .merging loop _ _ _ | .merged loop _ | .refreshed loop _ _
  | .ready loop _ _ _ => some loop.call
  | .idle | .done _ | .failed _ _ => none

/-- The call is a `SubmitChangeset` that names the patchset. -/
def SubmitStage.Names (stage : SubmitStage) (N : PatchsetID) : Prop :=
  ∃ call, stage.call? = some call ∧ call.stack = false ∧ call.expected = some N

section Statements

variable (srv : Server) (root : Node) (as : List ServiceAction)

/-- A call that names `N` admits `N` or what the server merged from it. It is about the calls that
admit: one that is answered from an earlier admission of its changeset admits nothing itself, and is
not spoken of. -/
def LandsAsked : Prop :=
  ∀ before k now fresh, before ++ [.advance k now fresh] <+: as →
    ∀ N req a, ((after srv root before).calls k).Names N →
      ((after srv root before).calls k).submission = some req →
      admission (after srv root before).store req = .ok a →
        MergedFrom (after srv root before) N a.patchset

/-- A call that names `N` names the current patchset to the store as long as that is `N` or what the
server merged from it, so it is not refused for naming another one. -/
def RetriesAccepted : Prop :=
  ∀ before k now fresh, before ++ [.advance k now fresh] <+: as →
    ∀ N req, ((after srv root before).calls k).Names N →
      ((after srv root before).calls k).submission = some req →
      ∀ c p, (after srv root before).store.core req.changeset = some c →
        c.currentPatchset = some p →
        MergedFrom (after srv root before) N p → req.expected = some p

end Statements

/-! ## The conditions -/

/-- A call that reads the changeset again to merge it finds the patchset it has tried, or what the
server merged from that. -/
def SubmitStage.Unmixed (s : Service) : SubmitStage → Prop
  | .stale loop => ∀ c ∈ s.store.core loop.call.changeset, ∀ p ∈ c.currentPatchset,
      ∃ t ∈ loop.tried, MergedFrom s t p
  | _ => True

/-- Nobody uploads a patchset of the server's kind, and nobody uploads one between a refusal for a
stale base and the merge. -/
def Unmixed (s : Service) : ServiceAction → Prop
  | .store (.addPatchset _ _ _ _ upload) => upload.kind ≠ submitMergeKind
  | .advance k _ _ => (s.calls k).Unmixed s
  | _ => True

/-- The changeset of a call that submits has the current patchset it had when the call read or
merged it, and the server has merged the patchset that the call names at most once. -/
def SubmitStage.Alone (s : Service) : SubmitStage → Prop
  | .checked call cs _ =>
    (∀ c ∈ s.store.core cs.id, c.currentPatchset = cs.row.currentPatchset) ∧
      ∀ N ∈ call.expected, ∀ p ∈ cs.row.currentPatchset, MergedFrom s N p →
        p = N ∨ (N, p) ∈ s.merges
  | .ready loop patchset _ _ =>
    ∀ c ∈ s.store.core loop.call.changeset, c.currentPatchset = some patchset
  | _ => True

/-- The same of a step of the service. -/
def Alone (s : Service) : ServiceAction → Prop
  | .advance k _ _ => (s.calls k).Alone s
  | _ => True

/-! ## The merges along a history -/

theorem Follows.mono {s s' : State} (h : s.patchsets.Extends s'.patchsets) {a b : PatchsetID}
    (hf : Follows s a b) : Follows s' a b := by
  obtain ⟨pa, pb, ha, hb, hrest⟩ := hf
  exact ⟨pa, pb, h _ _ ha, h _ _ hb, hrest⟩

variable {s s' : Service}

theorem MergedFrom.mono (hmerges : ∀ r ∈ s.merges, r ∈ s'.merges)
    (hext : s.store.patchsets.Extends s'.store.patchsets) {a b : PatchsetID}
    (h : MergedFrom s a b) :
    MergedFrom s' a b := by
  induction h with
  | refl => exact .refl
  | tail _ hm ih => exact ih.tail ⟨hmerges _ hm.1, hm.2.imp_right (Follows.mono hext)⟩

variable {a : ServiceAction} {srv : Server}
theorem Serving.merges (h : Serving srv s a s') :
    ∀ r ∈ s.merges, r ∈ s'.merges := by
  cases h with
  | merge => exact fun r hr => mem_append_left _ hr
  | refused | store | checkRun | checkRunStatus | move | submit | unmergeable => exact fun r hr => hr

variable {p : PatchsetID}

/-- The merges on record are what they say, and every patchset of their kind is one. -/
structure MergesSound (s : Service) : Prop where
  linked : ∀ r ∈ s.merges, r.1 = r.2 ∨ Follows s.store r.1 r.2
  made : ∀ b pb, s.store.patchsets.get b = some pb → pb.kind = submitMergeKind →
    ∃ a, (a, b) ∈ s.merges ∧ Follows s.store a b

variable {now : Time} {fresh : PatchsetID}

theorem addPatchset_expected {s s' : State} {id : ChangesetID} {r : PatchsetID}
    {upload : PatchsetUpload} {c : Changeset} (hc : s.changesets.get id = some c)
    (h : addPatchset s now id (some p) fresh upload = .ok (s', r)) :
    c.currentPatchset = some p := by
  rw [addPatchset, hc] at h
  obtain ⟨baseTree, -, h⟩ := Except.bind_eq_ok.mp h
  obtain ⟨v, -, h⟩ := Except.bind_eq_ok.mp h
  split_ifs at h with hstatus hexpected
  by_contra hne
  exact hexpected ⟨rfl, hne⟩

variable {cs : ChangesetView}

theorem Uploads.serverMerge {loop : MergeLoop} {ps : Patchset} {head : CommitID} {r : Rebased}
    {slice : Slice} {store : State} {id old : PatchsetID}
    (h : Uploads srv s now fresh loop cs ps head r slice store id) (hs : CoresSound s.store)
    (hold : cs.row.currentPatchset = some old) :
    (store.patchsets = s.store.patchsets ∧ old = id) ∨
      ∃ pb, s.store.patchsets.get id = none ∧ store.patchsets = s.store.patchsets.set id pb ∧
        Follows store old id := by
  have hblobs := putBlobs_sameCores s.store r.blobs
  obtain ⟨c, baseTree, v, resultTree, hc, -, -, -, -, -, hend⟩ := addPatchset_ok h.added
  have hadded := h.added
  rw [hold] at hadded
  have hcurrent := addPatchset_expected hc hadded
  obtain ⟨po, hpo, hchangeset, hnumber⟩ := hs.current cs.id c.core old
    (by rw [← hblobs.core]; exact State.core_eq_some hc) hcurrent
  rcases hend with ⟨rfl, hsame⟩ | ⟨rfl, hnew, rfl⟩
  · left
    have hid : c.currentPatchset = some id := (filter_eq_some_iff.mp hsame).1
    rw [hcurrent] at hid
    exact ⟨hblobs.patchsets, Option.some.inj hid⟩
  · right
    rw [hblobs.patchsets] at hnew
    refine ⟨_, hnew, by rw [hblobs.patchsets], po, _, ?_, Table.get_set_self _ _ _, hchangeset, ?_, rfl⟩
    · show (Table.set _ _ _).get old = some po
      rw [hblobs.patchsets]
      exact Table.extends_set hnew _ _ _ hpo
    · show c.currentNumber + 1 = po.number + 1
      rw [hnumber]
      rfl

variable {as : List ServiceAction} {root : Node}

/-- **An unmixed step keeps the merges sound.** -/
theorem MergesSound.serve (h : MergesSound (after srv root as))
    (hm : Serving srv (after srv root as) a s')
    (ha : Unmixed (after srv root as) a) : MergesSound s' := by
  have hcalls := callsSound srv root as
  -- what is not new was sound before
  have hnext : (∀ r ∈ s'.merges, r ∈ (after srv root as).merges ∨ r.1 = r.2 ∨ Follows s'.store r.1 r.2) →
      (∀ b pb, s'.store.patchsets.get b = some pb → pb.kind = submitMergeKind →
        (after srv root as).store.patchsets.get b = some pb ∨ ∃ a, (a, b) ∈ s'.merges ∧
          Follows s'.store a b) →
      MergesSound s' := by
    refine fun hlinked hmade => ⟨fun r hr => ?_, fun b pb hb hkind => ?_⟩
    · exact (hlinked r hr).elim (fun hr => (h.linked r hr).imp_right (Follows.mono hm.extends)) id
    · rcases hmade b pb hb hkind with hb | hnew
      · obtain ⟨p, hp, hf⟩ := h.made b pb hb hkind
        exact ⟨p, hm.merges _ hp, hf.mono hm.extends⟩
      · exact hnew
  -- the steps that neither merge nor push
  have hsame : s'.merges = (after srv root as).merges →
      s'.store.patchsets = (after srv root as).store.patchsets →
        MergesSound s' := fun hmerges hpatchsets =>
    hnext (fun r hr => .inl (hmerges ▸ hr)) fun b pb hb _ => .inl (hpatchsets ▸ hb)
  cases hm' : hm with
  | refused | checkRun | checkRunStatus | move => exact hsame rfl rfl
  | unmergeable k now fresh blobs => exact hsame rfl (putBlobs_sameCores _ blobs).patchsets
  | submit k now fresh req hreq =>
    rcases hm.cores with hcores | ⟨b, hb, -⟩ | ⟨_, _, _, _, _, _, hrun, -⟩
    · exact hsame rfl hcores.patchsets
    · -- a call that submits is not merging
      rcases hb with hb | hb
      · cases hb
      · cases hb with
        | mk k now fresh loop cs ps head edits slice hstage =>
          rw [hstage] at hreq
          cases hreq
    · cases hrun
  | store b =>
    have hmove := step_core (after srv root as).store b
    clear hm' hm
    generalize step (after srv root as).store b = t at *
    cases hmove with
    | kept b t hkept => exact hsame rfl hkept.patchsets
    | created _ _ _ _ _ _ _ hpatchsets | approved _ _ _ _ _ _ _ _ _ hpatchsets
    | reported _ _ _ _ _ _ _ _ _ _ _ _ _ hpatchsets => exact hsame rfl hpatchsets
    | pushed now id expected patchset upload t c blobs v baseTree resultTree hc hnew hv hpatchsets =>
      refine hnext (fun r hr => .inl hr) fun q pq hq hkind => .inl ?_
      have hq' : t.patchsets.get q = some pq := hq
      rw [hpatchsets] at hq'
      rcases Table.get_set_cases hq' with ⟨-, rfl⟩ | ⟨-, hq'⟩
      · exact absurd hkind ha
      · exact hq'
  | merge k now fresh loop cs ps head r slice store id hstage hup =>
    have hcall : CallSound srv root as (after srv root as).store (.merging loop cs ps head) :=
      hstage ▸ hcalls.calls k
    obtain ⟨old, hold⟩ := isSome_iff_exists.mp hcall.2
    have hmerges : ∀ x, x ∈ (after srv root as).merges ++
        (cs.row.currentPatchset.toList.map fun p => (p, id)) ↔
          x ∈ (after srv root as).merges ∨ x = (old, id) := by
      intro x
      rw [hold]
      simp
    rcases hup.serverMerge hcalls.cores hold with ⟨hpatchsets, rfl⟩ | ⟨pb, -, hpatchsets, hf⟩
    · -- the merge is the current patchset again
      refine hnext (fun x hx => ((hmerges x).mp hx).imp_right ?_) fun b pb hb _ => .inl
        (hpatchsets ▸ hb)
      rintro rfl
      exact .inl rfl
    · refine hnext (fun x hx => ((hmerges x).mp hx).imp_right ?_) fun b pb' hb hkind => ?_
      · rintro rfl
        exact .inr hf
      · have hb' : store.patchsets.get b = some pb' := hb
        rw [hpatchsets] at hb'
        rcases Table.get_set_cases hb' with ⟨rfl, -⟩ | ⟨-, hb'⟩
        · exact .inr ⟨old, (hmerges _).mpr (.inr rfl), hf⟩
        · exact .inl hb'

/-! ## What a call names -/

/-- The first try of a call that names `N` names `N` to the store, or what the server merged from
it. -/
theorem firstExpected_mergedFrom (h : MergesSound s) (hv : Viewed s.store cs) {call : SubmitCall}
    {N : PatchsetID} (hstack : call.stack = false) (hN : call.expected = some N) :
    ∃ e, call.firstExpected cs = some e ∧ MergedFrom s N e := by
  unfold SubmitCall.firstExpected acceptedExpectedPatchset
  rw [hstack, if_neg Bool.false_ne_true, hN]
  split
  · rename_i e q pq hexpected hcurrent
    cases hexpected
    split_ifs with hmerged
    · -- the current patchset is of the kind of a merge, and `N` stands before it
      obtain ⟨-, hkind, hzip⟩ := hmerged
      refine ⟨q, rfl, ?_⟩
      obtain ⟨⟨x, y⟩, hxy, hids⟩ := any_eq_true.mp hzip
      simp only [Bool.and_eq_true, decide_eq_true_eq] at hids
      obtain ⟨hx, hy⟩ := hids
      have hmem := ChangesetView.mem_of_currentPatchset hcurrent
      have hq : s.store.patchsets.get q = some pq := hv.patchsets _ hmem
      have hymem : y ∈ cs.patchsets := mem_of_mem_tail (of_mem_zip hxy).2
      have hyrow : y = (q, pq) := by
        have := hv.patchsets y hymem
        rw [hy, hq] at this
        exact Prod.ext hy (Option.some.inj this).symm
      -- the merge was made from the patchset with the number before
      obtain ⟨a, ha, hf⟩ := h.made q pq hq hkind
      obtain ⟨pa, pb, hpa, hpb, hchangeset, hnumber, -⟩ := id hf
      rw [hq] at hpb
      cases hpb
      obtain ⟨p, hp⟩ : ∃ p, cs.row.currentPatchset = some p := by
        by_contra hnone
        rw [not_exists] at hnone
        have hempty := hv.noCurrent (eq_none_iff_forall_ne_some.mpr hnone)
        rw [hempty] at hmem
        cases hmem
      obtain ⟨pp, hpp, -, hid, hcurrentNumber⟩ := hv.current p hp
      rw [hcurrent] at hpp
      cases hpp
      have hamem : (a, pa) ∈ cs.patchsets := by
        rcases hv.newer a pa hpa (hchangeset.trans hid) with hamem | hlt
        · exact hamem
        · omega
      have hxa : x = (a, pa) := eq_of_zip_tail hv.sorted hxy hamem (by rw [hyrow]; exact hnumber)
      rw [hxa] at hx
      have haN : a = N := hx
      subst haN
      exact Relation.ReflTransGen.single ⟨ha, .inr hf⟩
    · exact ⟨N, rfl, .refl⟩
  · exact ⟨N, rfl, .refl⟩

variable {req : SubmitRequest}

theorem openForSubmit_of_isStaleBase {s : State} {e : StoreError}
    (h : submitAnswer s now req = .error e) (he : isStaleBase e = true) :
    ∃ c id ps, openForSubmit s req = .ok (c, id, ps) := by
  cases hopen : openForSubmit s req with
  | ok r => exact ⟨r.1, r.2.1, r.2.2, rfl⟩
  | error stop =>
    have hadmission : admission s req = .error stop := by
      rw [admission, hopen]
      rfl
    unfold submitAnswer submitOnce at h
    rw [hadmission] at h
    -- none of the refusals before that is for a stale base
    obtain ⟨r, rfl⟩ | ⟨e', rfl, he'⟩ := openForSubmit_error hopen
    · cases h
    · cases h
      obtain rfl | rfl | rfl := he'
      · cases he
      · exact absurd he (by decide)
      · exact absurd he (by decide)

/-- What a call that names `N` holds, at each stage. -/
def SubmitStage.FromNamed (s : Service) (N : PatchsetID) : SubmitStage → Prop
  | .stale loop => ∃ t ∈ loop.tried, MergedFrom s N t
  | .latest _ cs | .merging _ cs _ _ => ∀ p ∈ cs.row.currentPatchset, MergedFrom s N p
  | .merged _ p | .refreshed _ p _ | .ready _ p _ _ => MergedFrom s N p
  | .idle | .read _ _ | .checked _ _ _ | .done _ | .failed _ _ => True

variable {stage : SubmitStage} {N : PatchsetID}
theorem SubmitStage.FromNamed.mono (h : stage.FromNamed s N)
    (hm : ∀ p, MergedFrom s N p → MergedFrom s' N p) : stage.FromNamed s' N := by
  cases stage with
  | stale =>
    obtain ⟨t, ht, hfrom⟩ := h
    exact ⟨t, ht, hm t hfrom⟩
  | latest | merging => exact fun p hp => hm p (h p hp)
  | merged _ p | refreshed _ p | ready _ p => exact hm p h
  | idle | read | checked | done | failed => trivial

/-- The merges are sound, and the calls hold what they name. -/
structure NamedSound (s : Service) : Prop where
  merges : MergesSound s
  calls : ∀ k N, (s.calls k).Names N → (s.calls k).FromNamed s N

theorem StageMove.fromNamed {k : CallID} {stage' : SubmitStage}
    (hm : StageMove srv s k a stage stage') (hunmixed : stage.Unmixed s)
    (hnames : stage'.Names N) (h : stage.Names N → stage.FromNamed s N) : stage'.FromNamed s N := by
  cases hm with
  | idle | failed | read | checked | unmerged => trivial
  | latest now fresh loop cs hcs =>
    obtain ⟨t, ht, hfrom⟩ := h hnames
    intro p hp
    -- what it finds comes from what it has tried
    obtain ⟨-, hrow, -⟩ := getChangeset_some hcs
    obtain ⟨t', ht', hmerged⟩ := hunmixed _ (State.core_eq_some hrow) p hp
    rw [ht] at ht'
    cases ht'
    exact hfrom.trans hmerged
  | merging | refreshed | ready => exact h hnames

theorem afterSubmit_fromNamed (hmerges : MergesSound s)
    (hreq : stage.submission = some req)
    (hview : ∀ call cs extra, stage = .checked call cs extra → Viewed s.store cs)
    (hnames : (stage.afterSubmit s.store now).Names N) (h : stage.Names N → stage.FromNamed s N) :
    (stage.afterSubmit s.store now).FromNamed s N := by
  cases stage with
  | checked call cs extra =>
    simp only [SubmitStage.afterSubmit] at hnames ⊢
    split at hnames
    · trivial
    · rename_i e he
      split_ifs at hnames ⊢ with hstale
      · -- the store found the patchset that the call named to it
        obtain ⟨c, id, ps, hopen⟩ := openForSubmit_of_isStaleBase he (Bool.and_eq_true_iff.mp hstale).1
        obtain ⟨hc, -, -, -, hexpected, -, -⟩ := openForSubmit_ok hopen
        obtain ⟨call', hcall, hstack, hN⟩ := hnames
        cases hcall
        obtain ⟨x, hx, hfrom⟩ := firstExpected_mergedFrom hmerges (hview _ _ _ rfl) hstack hN
        refine ⟨x, ?_, hfrom⟩
        rw [show s.store.changesets.get call.changeset = some c from hc, bind_some,
          hexpected (by show (call.firstExpected cs).isSome; rw [hx]; rfl)]
        exact hx
      · trivial
  | ready loop p =>
    simp only [SubmitStage.afterSubmit] at hnames ⊢
    split at hnames
    · trivial
    · split_ifs at hnames ⊢
      · exact ⟨p, rfl, h hnames⟩
      · trivial
      · trivial
  | _ => cases hreq

/-- **An unmixed step keeps the calls to what they name.** -/
theorem NamedSound.step (h : NamedSound (after srv root as)) (ha : Unmixed (after srv root as) a) :
    NamedSound (after srv root (as ++ [a])) := by
  rw [after_append_singleton]
  have hm := serve_serving srv (after srv root as) a
  generalize serve srv (after srv root as) a = s' at hm
  have hmerges : MergesSound s' := h.merges.serve hm ha
  have hcalls := (callsSound srv root as).calls
  have hmono : ∀ {N : PatchsetID} (p : PatchsetID), MergedFrom (after srv root as) N p →
      MergedFrom s' N p := fun p hp => hp.mono hm.merges hm.extends
  refine ⟨hmerges, fun k N hnames => ?_⟩
  by_cases hmoved : s'.calls k = (after srv root as).calls k
  · rw [hmoved] at hnames ⊢
    exact (h.calls k N hnames).mono hmono
  cases hm' : hm with
  | refused | store | checkRun | checkRunStatus => exact absurd rfl hmoved
  | move a j stage hmove =>
    obtain rfl := Service.eq_of_calls_setCall_ne hmoved
    rw [Service.calls_setCall_self] at hnames ⊢
    have hunmixed : ((after srv root as).calls k).Unmixed (after srv root as) := by
      cases hstage : (after srv root as).calls k with
      | stale =>
        rw [hstage] at hmove
        cases hmove with
        | idle | failed => exact absurd hnames (by rintro ⟨_, hcall, -⟩; cases hcall)
        | latest => rw [← hstage]; exact ha
      | _ => trivial
    exact (hmove.fromNamed hunmixed hnames (h.calls k N)).mono hmono
  | submit j now fresh req hreq =>
    obtain rfl := Service.eq_of_calls_setCall_ne hmoved
    rw [Service.calls_setCall_self] at hnames ⊢
    refine (afterSubmit_fromNamed h.merges hreq ?_ hnames (h.calls k N)).mono hmono
    intro call cs extra hstage
    have hcall := hcalls k
    rw [hstage] at hcall
    exact hcall.2
  | unmergeable =>
    obtain rfl := Service.eq_of_calls_setCall_ne hmoved
    rw [Service.calls_setCall_self]
    trivial
  | merge j now fresh loop cs ps head r slice store id hstage =>
    obtain rfl := Service.eq_of_calls_setCall_ne hmoved
    have hcall : CallSound srv root as (after srv root as).store (.merging loop cs ps head) :=
      hstage ▸ hcalls k
    obtain ⟨old, hold⟩ := isSome_iff_exists.mp hcall.2
    have hnamed := h.calls k N
    rw [hstage] at hnamed
    rw [Service.calls_setCall_self] at hnames ⊢
    -- the merge on record is of what the call found
    have hmem : (old, id) ∈ (after srv root as).merges ++
        cs.row.currentPatchset.toList.map fun p => (p, id) := by
      rw [hold]
      simp
    exact (hmono old (hnamed hnames old hold)).tail ⟨hmem, hmerges.linked _ hmem⟩

theorem namedSound_nil (srv : Server) (root : Node) : NamedSound (after srv root []) := by
  refine ⟨⟨?_, ?_⟩, ?_⟩
  · intro r hr
    cases hr
  · intro b pb hb
    cases hb
  · rintro k N ⟨call, hcall, -⟩
    cases hcall

theorem namedSound (h : Machine.Meets (serve srv) Unmixed (Service.start root) as) :
    NamedSound (after srv root as) :=
  Machine.history_induction (fun as => NamedSound (after srv root as)) (namedSound_nil srv root)
    (fun _ _ hs ha => hs.step ha) h

/-! ## What a call admits -/

theorem acceptedExpectedPatchset_eq {s : State} (hv : Viewed s cs)
    (hp : cs.row.currentPatchset = some p)
    (h : N = p ∨ Follows s N p) : acceptedExpectedPatchset cs (some N) = some p := by
  obtain ⟨ps, hcurrent, hmem, hid, hnumber⟩ := hv.current p hp
  unfold acceptedExpectedPatchset
  rw [hcurrent]
  simp only
  by_cases hN : N = p
  · rw [if_neg (fun hne => hne.1 hN), hN]
  · obtain ⟨pa, pb, hpa, hpb, hchangeset, hnext, hkind⟩ := h.resolve_left hN
    have hps : s.patchsets.get p = some ps := hv.patchsets _ hmem
    rw [hps] at hpb
    cases hpb
    -- the merged patchset was seen, and it stands right before its merge
    have hNmem : (N, pa) ∈ cs.patchsets := by
      rcases hv.newer N pa hpa (hchangeset.trans hid) with hNmem | hlt
      · exact hNmem
      · omega
    have hzip : ((N, pa), (p, ps)) ∈ cs.patchsets.zip cs.patchsets.tail :=
      zip_tail_of_succ hv.sorted hNmem hmem hnext
    rw [if_pos ⟨hN, hkind, any_eq_true.mpr ⟨_, hzip, by simp⟩⟩]

section

variable {k : CallID} (h : NamedSound (after srv root as))
  (hnames : ((after srv root as).calls k).Names N)
  (hreq : ((after srv root as).calls k).submission = some req)
include h hnames hreq

theorem NamedSound.expected : ∃ e, req.expected = some e ∧ MergedFrom (after srv root as) N e := by
  have hcall := (callsSound srv root as).calls k
  have hfrom := h.calls k N hnames
  cases hstage : (after srv root as).calls k with
  | checked =>
    rw [hstage] at hcall hreq hnames
    cases hreq
    obtain ⟨call', hsome, hstack, hN⟩ := hnames
    cases hsome
    exact firstExpected_mergedFrom h.merges hcall.2 hstack hN
  | ready loop p =>
    rw [hstage] at hreq hfrom
    cases hreq
    exact ⟨p, rfl, hfrom⟩
  | _ =>
    rw [hstage] at hreq
    cases hreq

theorem NamedSound.expected_current
    (halone : ((after srv root as).calls k).Alone (after srv root as)) {c : ChangesetCore}
    {p : PatchsetID} (hc : (after srv root as).store.core req.changeset = some c)
    (hp : c.currentPatchset = some p)
    (hfrom : MergedFrom (after srv root as) N p) : req.expected = some p := by
  have hcall := (callsSound srv root as).calls k
  cases hstage : (after srv root as).calls k with
  | checked call cs =>
    rw [hstage] at hcall hreq hnames halone
    cases hreq
    obtain ⟨hextras, hview⟩ := hcall
    obtain ⟨before, -, hread, -⟩ := hextras
    obtain ⟨hsame, honce⟩ := halone
    obtain ⟨call', hsome, hstack, hN⟩ := hnames
    cases hsome
    have hrow : cs.row.currentPatchset = some p := by
      rw [← hsame c (by rw [hread.id_eq]; exact hc), hp]
    unfold SubmitCall.firstExpected
    rw [hstack, hN]
    refine acceptedExpectedPatchset_eq hview hrow ?_
    rcases honce N hN p hrow hfrom with rfl | hmerged
    · exact .inl rfl
    · exact h.merges.linked _ hmerged
  | ready loop q =>
    rw [hstage] at hreq halone
    cases hreq
    have hq : c.currentPatchset = some q := halone c hc
    exact hq.symm.trans hp
  | _ =>
    rw [hstage] at hreq
    cases hreq

end

/-- **Submit lands what was asked for.** In a history in which nobody uploads a merge, or a patchset
under a call that is about to merge, a call admits the patchset it names or what the server merged
from it; and if its changeset changes neither under it nor by more than one merge, the call is not
refused for naming that patchset. -/
theorem submit_lands_asked (srv : Server) (root : Node) (as : List ServiceAction) :
    (Machine.Meets (serve srv) Unmixed (Service.start root) as → LandsAsked srv root as) ∧
      (Machine.Meets (serve srv) (fun s a => Unmixed s a ∧ Alone s a) (Service.start root) as →
        RetriesAccepted srv root as) := by
  constructor
  · rintro h before k now fresh ⟨rest, rfl⟩ N req a hnames hreq hadmission
    rw [append_assoc] at h
    obtain ⟨hbefore, -, -⟩ := Machine.meets_append.mp h
    obtain ⟨e, he, hfrom⟩ := (namedSound hbefore).expected hnames hreq
    obtain ⟨ps, ha⟩ := admission_ok hadmission
    obtain ⟨-, -, -, -, hexpected, hcurrent, -⟩ := openForSubmit_ok ha.opened
    rw [he, hcurrent] at hexpected
    rwa [Option.some.inj (hexpected rfl)]
  · rintro h before k now fresh ⟨rest, rfl⟩ N req hnames hreq c p hc hp hfrom
    rw [append_assoc] at h
    obtain ⟨hbefore, hlast, -⟩ := Machine.meets_append.mp h
    exact (namedSound (hbefore.mono fun _ _ ha => ha.1)).expected_current hnames hreq hlast.2 hc hp hfrom

/-! ## Histories -/

/-- A server that merges a file. -/
def mergingServer : Server :=
  { lintServer with
    rebase := fun _ _ _ _ => .ok ⟨[.upsert ["acme", "site", "a.txt"] ⟨"blob_3", "", 0⟩], [],
      [("blob_3", ⟨"hash_3", 6⟩)]⟩ }

/-- A patchset that writes the file on a commit. -/
def writesOn (base : CommitID) (author : Subject) (blob : BlobID) : PatchsetUpload :=
  { oneEdit author with
    base := .commit base
    fileEdits := [.upsert ["acme", "site", "a.txt"] ⟨blob, "", 0⟩] }

/-- The changeset of `bob` lands, and a call that submits the one of `ann` is refused for its
base. -/
def refusedOnce : List ServiceAction :=
  [.store (.setSlice "site" ⟨"acme", [["acme"]], 0, [], true⟩),
    .store (.putBlob "blob_1" ⟨"hash_1", 3⟩), .store (.putBlob "blob_2" ⟨"hash_2", 4⟩),
    .store (.create 1 "cs_1" "ann" ⟨"site", "one", "", none, none, none⟩),
    .store (.create 2 "cs_2" "bob" ⟨"site", "two", "", none, none, none⟩),
    .store (.addPatchset 3 "cs_1" none "ps_1" (writesOn (.initial .nil) "ann" "blob_1")),
    .store (.addPatchset 4 "cs_2" none "ps_2" (writesOn (.initial .nil) "bob" "blob_2")),
    .store (.submit 5 ⟨"cs_2", none, [], false⟩), .store (.claim 1 6 1), .store (.build 1 7),
    .store (.finalize 1 8),
    .call 0 ⟨"ann", "cs_1", some "ps_1", false⟩, .advance 0 9 "", .advance 0 10 ""]

/-- The call reads the changeset, merges it and computes the results to count. -/
def merges (k : CallID) (fresh : PatchsetID) : List ServiceAction :=
  [.advance k 11 fresh, .advance k 12 fresh, .advance k 13 fresh, .advance k 14 fresh,
    .advance k 15 fresh]

/-- `bob` uploads a patchset before the call merges. -/
def uploadBetween : List ServiceAction :=
  refusedOnce ++ .store (.addPatchset 11 "cs_1" none "ps_3" (writesOn (.initial .nil) "bob" "blob_2")) ::
    merges 0 "ps_4"

/-- Another change of the file lands, so the call merges a second time; then its server stops and
`ann` submits again. -/
def mergedTwice : List ServiceAction :=
  let once := refusedOnce ++ merges 0 "ps_3"
  once ++
    [.store (.create 16 "cs_3" "bob" ⟨"site", "three", "", none, none, none⟩),
      .store (.addPatchset 17 "cs_3" none "ps_5"
        (writesOn (after mergingServer .nil once).store.ref "bob" "blob_1")),
      .store (.submit 18 ⟨"cs_3", none, [], false⟩), .store (.claim 1 19 1), .store (.build 1 20),
      .store (.finalize 1 21), .advance 0 22 ""] ++
    merges 0 "ps_4" ++ [.leave 0, .call 1 ⟨"ann", "cs_1", some "ps_1", false⟩, .advance 1 23 ""]

/-- In the first history the call admits a merge of what `bob` uploaded; in the second one the call
is refused for naming a patchset that only the server has merged. -/
theorem unasked_merges :
    ¬ LandsAsked mergingServer .nil (uploadBetween ++ [.advance 0 30 ""]) ∧
      ¬ RetriesAccepted mergingServer .nil (mergedTwice ++ [.advance 1 30 ""]) := by
  constructor
  · intro h
    have hnames : ((after mergingServer .nil uploadBetween).calls 0).call? =
        some ⟨"ann", "cs_1", some "ps_1", false⟩ := by decide +kernel
    have hreq : ((after mergingServer .nil uploadBetween).calls 0).submission =
        some ⟨"cs_1", some "ps_4", [], false⟩ := by decide +kernel
    have hadmits : (admission (after mergingServer .nil uploadBetween).store
        ⟨"cs_1", some "ps_4", [], false⟩).toOption.map Admission.patchset = some "ps_4" := by
      decide +kernel
    obtain ⟨a, ha, hp⟩ := map_eq_some_iff.mp hadmits
    have hfrom := h uploadBetween 0 30 "" (prefix_refl _) "ps_1" _ a ⟨_, hnames, rfl, rfl⟩ hreq
      (Except.toOption_eq_some.mp ha)
    rw [hp] at hfrom
    -- nothing was merged from `ps_1`
    have hmerges : (after mergingServer .nil uploadBetween).merges = [("ps_3", "ps_4")] := by
      decide +kernel
    rcases hfrom.cases_head with heq | ⟨q, ⟨hmem, -⟩, -⟩
    · exact absurd heq (by decide)
    · rw [hmerges, mem_singleton] at hmem
      exact absurd (congrArg Prod.fst hmem) (by decide : ("ps_1" : PatchsetID) ≠ "ps_3")
  · intro h
    have hnames : ((after mergingServer .nil mergedTwice).calls 1).call? =
        some ⟨"ann", "cs_1", some "ps_1", false⟩ := by decide +kernel
    have hreq : ((after mergingServer .nil mergedTwice).calls 1).submission =
        some ⟨"cs_1", some "ps_1", [], false⟩ := by decide +kernel
    have hcurrent : ((after mergingServer .nil mergedTwice).store.core "cs_1").map
        ChangesetCore.currentPatchset = some (some "ps_4") := by decide +kernel
    obtain ⟨c, hc, hp⟩ := map_eq_some_iff.mp hcurrent
    -- the server merged it into `ps_3` and that into `ps_4`
    have hlinks : ∀ r ∈ [("ps_1", "ps_3"), ("ps_3", "ps_4")],
        r ∈ (after mergingServer .nil mergedTwice).merges ∧
          ∃ pa ∈ (after mergingServer .nil mergedTwice).store.patchsets.get r.1,
            ∃ pb ∈ (after mergingServer .nil mergedTwice).store.patchsets.get r.2,
              pa.changeset = pb.changeset ∧ pb.number = pa.number + 1 ∧
                pb.kind = submitMergeKind := by
      decide +kernel
    have hmerge : ∀ r ∈ [("ps_1", "ps_3"), ("ps_3", "ps_4")],
        ServerMerge (after mergingServer .nil mergedTwice) r.1 r.2 := by
      intro r hr
      obtain ⟨hmem, pa, hpa, pb, hpb, hfollows⟩ := hlinks r hr
      exact ⟨hmem, .inr ⟨pa, pb, hpa, hpb, hfollows⟩⟩
    have hfrom : MergedFrom (after mergingServer .nil mergedTwice) "ps_1" "ps_4" :=
      (Relation.ReflTransGen.single (hmerge ("ps_1", "ps_3") (by decide))).tail
        (hmerge ("ps_3", "ps_4") (by decide))
    have := h mergedTwice 1 30 "" (prefix_refl _) "ps_1" _ ⟨_, hnames, rfl, rfl⟩ hreq c "ps_4" hc
      hp hfrom
    exact absurd this (by decide)

/-- Nothing has been pushed to the changeset since the call read, tried or merged it, and the call
names the patchset it read. -/
def SubmitStage.Still (s : State) : SubmitStage → Prop
  | .stale loop => ∀ c ∈ s.core loop.call.changeset, c.currentPatchset = loop.tried
  | .checked call cs _ =>
    (∀ c ∈ s.core cs.id, c.currentPatchset = cs.row.currentPatchset) ∧
      ∀ N ∈ call.expected, ∀ p ∈ cs.row.currentPatchset, p = N
  | .ready loop patchset _ _ => ∀ c ∈ s.core loop.call.changeset, c.currentPatchset = some patchset
  | _ => True

instance (s : State) (stage : SubmitStage) : Decidable (stage.Still s) := by
  rcases stage with _ | _ <;> dsimp only [SubmitStage.Still] <;> infer_instance

/-- A step of a history that nobody pushes into. -/
def Still (s : Service) : ServiceAction → Prop
  | .store (.addPatchset _ _ _ _ upload) => upload.kind ≠ submitMergeKind
  | .advance k _ _ => (s.calls k).Still s.store
  | _ => True

instance (s : Service) (a : ServiceAction) : Decidable (Still s a) := by
  unfold Still
  split <;> infer_instance

theorem Still.unmixed (h : Still s a) : Unmixed s a ∧ Alone s a := by
  cases a with
  | store b =>
    refine ⟨?_, trivial⟩
    cases b with
    | addPatchset => exact h
    | _ => trivial
  | advance k =>
    show (s.calls k).Unmixed s ∧ (s.calls k).Alone s
    have hstill : (s.calls k).Still s.store := h
    cases hstage : s.calls k with
    | stale =>
      rw [hstage] at hstill
      refine ⟨fun c hc p hp => ⟨p, ?_, .refl⟩, trivial⟩
      rw [← hstill c hc]
      exact hp
    | checked =>
      rw [hstage] at hstill
      exact ⟨trivial, hstill.1, fun N hN p hp _ => .inl (hstill.2 N hN p hp)⟩
    | ready =>
      rw [hstage] at hstill
      exact ⟨trivial, hstill⟩
    | _ => exact ⟨trivial, trivial⟩
  | _ => exact ⟨trivial, trivial⟩

/-- The call merges once and admits the merge. -/
def mergedOnce : List ServiceAction := refusedOnce ++ merges 0 "ps_3" ++ [.advance 0 16 ""]

theorem submit_lands_asked_mergedOnce :
    Machine.Meets (serve mergingServer) (fun s a => Unmixed s a ∧ Alone s a) (Service.start .nil)
        mergedOnce ∧
      (after mergingServer .nil mergedOnce).calls 0 = .done (some "ps_3") ∧
      LandsAsked mergingServer .nil mergedOnce ∧ RetriesAccepted mergingServer .nil mergedOnce := by
  have hstill : Machine.Meets (serve mergingServer) Still (Service.start .nil) mergedOnce := by
    decide +kernel
  have hmeets := hstill.mono fun _ _ h => h.unmixed
  obtain ⟨hlands, hretries⟩ := submit_lands_asked mergingServer .nil mergedOnce
  exact ⟨hmeets, by decide +kernel, hlands (hmeets.mono fun _ _ h => h.1), hretries hmeets⟩

end GitSlice
