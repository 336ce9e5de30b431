import GitSlice.Store.ExactlyOnce

/-! # Publication in the order of admission
A claim takes the first rows that wait and drops its locks, so a second publisher can claim the rows
after them and be the first to finalize: `overtaking` is such a run. While every claim is made at a
moment when no row is claimed, a batch that can be finalized is the beginning of the queue, and
commits stand on the ref in the order of admission (`publication_in_admission_order`).

The invariant is `Ordered`. Its heart is `Ordered.overtaken`: a row that is passed by a later one
belongs to an abandoned changeset. -/

namespace GitSlice

open List Table

/-! ## The statement -/

/-- Landed rows stand on the ref's chain, newest first, in the order of their sequence numbers. -/
def RowsInOrder (s : State) : Prop :=
  ∀ r ∈ s.pendingPublish, ∀ r' ∈ s.pendingPublish, ∀ k ∈ r.commit, ∀ k' ∈ r'.commit,
    r.sequence < r'.sequence → [k', k].Sublist s.ref.history

instance (s : State) : Decidable (RowsInOrder s) :=
  inferInstanceAs (Decidable (∀ r ∈ s.pendingPublish, ∀ r' ∈ s.pendingPublish, ∀ k ∈ r.commit,
    ∀ k' ∈ r'.commit, r.sequence < r'.sequence → [k', k].Sublist s.ref.history))

/-- A landed changeset stands on the chain after the one it is stacked on. -/
def ParentsFirst (s : State) : Prop :=
  ∀ id c pid k, s.changesets.get id = some c → c.status = .submitted → c.parent = some pid →
    c.commit = some k → ∃ p kp, s.changesets.get pid = some p ∧ p.status = .submitted ∧
      p.commit = some kp ∧ [k, kp].Sublist s.ref.history

/-- A claim is made only while no row is claimed. -/
def ClaimsAlone (s : State) : Action → Prop
  | .claim _ _ _ => ∀ r ∈ s.pendingPublish, r.status ≠ .publishing
  | _ => True

instance (s : State) (a : Action) : Decidable (ClaimsAlone s a) := by
  unfold ClaimsAlone
  split <;> infer_instance

/-! ## The invariant -/

/-- The rows that are not landed. -/
def State.unlanded (s : State) : List QueueRow := s.queue.filter fun r => r.commit = none

variable {s : State} {r : QueueRow}

theorem mem_unlanded : r ∈ s.unlanded ↔ r ∈ s.queue ∧ r.commit = none := by
  simp [State.unlanded]

/-- Publication keeps the **order** of admission. -/
structure Ordered (s : State) : Prop where
  /-- A claim made at the ref's commit is the beginning of what is not landed. -/
  claims : ∀ p claim, (s.publishers p).claim? = some claim → claim.originalCommit = s.ref →
    claim.rows <+: s.unlanded.map QueueRow.claimed
  /-- A claimed row that a build skips belongs to a changeset that does not wait. -/
  skipped : ∀ p claim build, s.publishers p = .built claim build → ∀ row ∈ claim.rows,
    row ∈ build.entries.map PublishEntry.row ∨
      ∃ c, s.changesets.get row.changeset = some c ∧ c.status ≠ .pendingPublish
  overtaken : ∀ r ∈ s.queue, r.commit = none → ∀ r' ∈ s.queue, r'.commit ≠ none →
    r.sequence < r'.sequence → ∃ c, s.changesets.get r.changeset = some c ∧ c.status = .abandoned
  order : ∀ r ∈ s.queue, ∀ r' ∈ s.queue, ∀ k ∈ r.commit, ∀ k' ∈ r'.commit,
    r.sequence < r'.sequence → [k', k].Sublist s.ref.history
  /-- What an admitted changeset is stacked on was admitted before it, and landed if it is
  landed. -/
  parents : ∀ id c pid, s.changesets.get id = some c → c.parent = some pid →
    (c.status = .pendingPublish ∨ c.status = .submitted) →
      ∃ p, s.changesets.get pid = some p ∧ (p.status = .pendingPublish ∨ p.status = .submitted) ∧
        (c.status = .submitted → p.status = .submitted) ∧
        ∀ r ∈ s.queue, r.changeset = id →
          ∃ rp ∈ s.queue, rp.changeset = pid ∧ rp.sequence < r.sequence

/-! ## Steps that do not publish -/

variable {now : Time} {claim : PendingPublishClaim} {req : SubmitRequest} {ps : Patchset} {a : Admission}
  {s' : State} {root : Node} {id : ChangesetID} {c : Changeset}

theorem unlanded_eq (hs : QueueSound s) (halone : ∀ r ∈ s.pendingPublish, r.status ≠ .publishing) :
    s.unlanded = (s.pendingPublish.filter fun r => r.status = .pending).map PendingPublish.queueRow := by
  rw [State.unlanded, State.queue, filter_map]
  refine congrArg _ (filter_congr fun r hr => ?_)
  have hiff : r.commit = none ↔ r.status = .pending := by
    rw [← Option.not_isSome_iff_eq_none, ← hs.status r hr]
    cases hst : r.status <;> simp_all
  exact decide_eq_decide.mpr hiff

variable {p : PublisherID} {build : PendingPublishBuild}

section

variable (h : Ordered s)
include h

theorem Ordered.of_kept (hq : s'.queue = s.queue) (hr : s'.ref = s.ref)
    (hclaims : ∀ p claim, (s'.publishers p).claim? = some claim →
      (s.publishers p).claim? = some claim)
    (hbuilds : ∀ p claim build, s'.publishers p = .built claim build →
      s.publishers p = .built claim build)
    (hprep : OnlyPrepared s.changesets s'.changesets) : Ordered s' where
  claims := by
    intro p claim hclaim horiginal
    rw [State.unlanded, hq]
    exact h.claims p claim (hclaims p claim hclaim) (hr ▸ horiginal)
  skipped := by
    intro p claim build hbuild row hrow
    refine (h.skipped p claim build (hbuilds p claim build hbuild) row hrow).imp_right ?_
    rintro ⟨c, hc, hst⟩
    obtain ⟨c', hc', hk⟩ := hprep.kept _ c hc
    exact ⟨c', hc', hk.status ▸ hst⟩
  overtaken := by
    rw [hq]
    intro r hrq hnone r' hr' hsome hlt
    obtain ⟨c, hc, hst⟩ := h.overtaken r hrq hnone r' hr' hsome hlt
    obtain ⟨c', hc', hk⟩ := hprep.kept _ c hc
    exact ⟨c', hc', hk.status.trans hst⟩
  order := by
    rw [hq, hr]
    exact h.order
  parents := by
    intro id c' pid hc' hparent hst
    rw [hq]
    obtain ⟨c, hc, hk⟩ | ⟨-, hdraft, -⟩ := hprep.fresh id c' hc'
    · rw [hk.status] at hst ⊢
      obtain ⟨p, hp, hpst, hpsub, hrows⟩ := h.parents id c pid hc (hk.parent ▸ hparent) hst
      obtain ⟨p', hp', hkp⟩ := hprep.kept _ p hp
      exact ⟨p', hp', hkp.status ▸ hpst, fun hs => hkp.status.trans (hpsub hs), hrows⟩
    · rw [hdraft] at hst
      simp at hst

theorem ordered_admitted (hs : Sound root s) (ha : Admits s req a ps) :
    Ordered (admitted s now req.changeset a) := by
  obtain ⟨hc, -⟩ := openForSubmit_ok ha.opened
  have hother : ∀ pid p, s.changesets.get pid = some p →
      p.status = .pendingPublish ∨ p.status = .submitted →
      pid ≠ req.changeset := by
    rintro pid p hp hst rfl
    rw [hc] at hp
    cases hp
    rw [hs.status.draft_of_admits ha] at hst
    simp at hst
  refine ⟨?_, ?_, ?_, ?_, ?_⟩
  · intro p claim hclaim horiginal
    rw [State.unlanded, queue_admitted, filter_append, map_append]
    exact (h.claims p claim hclaim horiginal).trans (prefix_append _ _)
  · intro p claim build hbuild row hrow
    obtain ⟨r, hr, rfl⟩ := mem_map.mp ((hs.claims.of_built hbuild).1.rows.subset hrow)
    rw [show r.claimed.changeset = r.changeset from rfl, get_admitted_of_ne (ha.ne_of_mem_queue hr)]
    exact h.skipped p claim build hbuild _ hrow
  · intro r hr hnone r' hr' hsome hlt
    rw [mem_queue_admitted] at hr hr'
    rcases hr' with hr' | rfl
    · rcases hr with hr | rfl
      · rw [get_admitted_of_ne (ha.ne_of_mem_queue hr)]
        exact h.overtaken r hr hnone r' hr' hsome hlt
      · exact absurd hlt (Nat.lt_asymm (hs.queue.fresh r' hr'))
    · exact absurd rfl hsome
  · intro r hr r' hr' k hk k' hk' hlt
    rw [mem_queue_admitted] at hr hr'
    rcases hr with hr | rfl
    · rcases hr' with hr' | rfl
      · exact h.order r hr r' hr' k hk k' hk' hlt
      · cases hk'
    · cases hk
  · intro id c pid hcid hparent hst
    rcases get_set_cases hcid with ⟨rfl, rfl⟩ | ⟨hid, hcid⟩
    · -- the parent is admitted, so its row has a smaller number than the new one
      have hadmitted := ha.parent
      rw [requireParentAdmitted, show a.changeset.parent = some pid from hparent] at hadmitted
      dsimp only at hadmitted
      split at hadmitted
      · cases hadmitted
      · rename_i p hp
        split_ifs at hadmitted with hpst
        have hprow : ∃ rp ∈ s.queue, rp.changeset = pid := by
          rcases hpst with hpst | hpst
          · obtain ⟨e, he, heq⟩ := hs.status.closed pid p hp hpst
            obtain ⟨rp, hrp, hcs, -⟩ := hs.status.logged e he
            exact ⟨rp, hrp, hcs.trans heq⟩
          · obtain ⟨rp, hrp, hcs, -⟩ := hs.status.pending pid p hp hpst
            exact ⟨rp, hrp, hcs⟩
        refine ⟨p, (get_admitted_of_ne (hother pid p hp hpst.symm)).trans hp, hpst.symm,
          fun hs' => (by cases hs'), ?_⟩
        obtain ⟨rp, hrp, hcs⟩ := hprow
        intro r hr hrcs
        rcases mem_queue_admitted.mp hr with hr | rfl
        · exact absurd hrcs (ha.ne_of_mem_queue hr)
        · exact ⟨rp, mem_queue_admitted.mpr (.inl hrp), hcs, hs.queue.fresh rp hrp⟩
    · obtain ⟨p, hp, hpst, hpsub, hrows⟩ := h.parents id c pid hcid hparent hst
      refine ⟨p, (get_admitted_of_ne (hother pid p hp hpst)).trans hp, hpst, hpsub,
        fun r hr hrcs => ?_⟩
      rcases mem_queue_admitted.mp hr with hr | rfl
      · obtain ⟨rp, hrp, hfacts⟩ := hrows r hr hrcs
        exact ⟨rp, mem_queue_admitted.mpr (.inl hrp), hfacts⟩
      · exact absurd hrcs.symm hid

theorem ordered_abandoned (hc : s.changesets.get id = some c)
    (hchild : hasActiveChild s id = false) (hsub : c.status ≠ .submitted) :
    Ordered { s with
      changesets := s.changesets.set id { c with status := .abandoned, updatedAt := now } } := by
  refine ⟨h.claims, ?_, ?_, h.order, ?_⟩
  · intro p claim build hbuild row hrow
    refine (h.skipped p claim build hbuild row hrow).imp_right ?_
    rintro ⟨d, hd, hst⟩
    exact exists_get_set hd hst fun _ _ => nofun
  · intro r hr hnone r' hr' hsome hlt
    obtain ⟨d, hd, hst⟩ := h.overtaken r hr hnone r' hr' hsome hlt
    exact exists_get_set hd hst fun _ _ => rfl
  · intro k d pid hd hparent hst
    rcases get_set_cases hd with ⟨-, rfl⟩ | ⟨-, hold⟩
    · simp at hst
    · obtain ⟨p, hp, hpst, hpsub, hrows⟩ := h.parents k d pid hold hparent hst
      have hpid : pid ≠ id := by
        -- the parent of an admitted changeset cannot be abandoned: the child is active or landed
        rintro rfl
        rw [hc] at hp
        cases hp
        have hdsub : d.status ≠ .submitted := fun hs => hsub (hpsub hs)
        have hactive : hasActiveChild s pid = true := by
          rw [hasActiveChild, any_eq_true]
          refine ⟨(k, d), (mem_rows_iff _ k d).mpr hold, ?_⟩
          have hpending : d.status = .pendingPublish := hst.resolve_right hdsub
          simp [hparent, hpending]
        rw [hchild] at hactive
        cases hactive
      exact ⟨p, (get_set_of_ne _ _ hpid).trans hp, hpst, hpsub, hrows⟩

theorem ordered_claimed (hs : QueueSound s) {limit : Nat}
    (halone : ∀ r ∈ s.pendingPublish, r.status ≠ .publishing)
    (hclaim : claimPendingPublishBatch s now limit = some (s', claim)) :
    Ordered (s'.setStage p (.claimed claim)) := by
  have hqueue := queue_claim hclaim
  obtain ⟨hrows, -, -, rfl⟩ := claimPendingPublishBatch_some hclaim
  refine ⟨?_, ?_, ?_, ?_, ?_⟩
  · intro q claim' hclaim' horiginal
    rw [State.unlanded, queue_setStage, hqueue]
    rw [publishers_setStage] at hclaim'
    split at hclaim'
    · cases hclaim'
      have hunlanded := unlanded_eq hs halone
      rw [State.unlanded] at hunlanded
      rw [hunlanded, hrows, map_map]
      refine IsPrefix.map _ ?_
      exact take_prefix _ _
    · exact h.claims q claim' hclaim' horiginal
  · intro q claim' build hbuild
    rw [publishers_setStage] at hbuild
    split at hbuild
    · cases hbuild
    · exact h.skipped q claim' build hbuild
  · rw [queue_setStage, hqueue]
    exact h.overtaken
  · rw [queue_setStage, hqueue]
    exact h.order
  · rw [queue_setStage, hqueue]
    exact h.parents

theorem ordered_built (hstage : s.publishers p = .claimed claim)
    (hbuild : buildPendingPublishBatch s now claim = .ok build) :
    Ordered (s.setStage p (.built claim build)) := by
  refine ⟨?_, ?_, h.overtaken, h.order, h.parents⟩
  · intro q claim' hclaim' horiginal
    rw [publishers_setStage] at hclaim'
    split at hclaim'
    · rename_i hq
      cases hclaim'
      exact h.claims p claim (by rw [hstage]; rfl) horiginal
    · exact h.claims q claim' hclaim' horiginal
  · intro q claim' build' hbuild'
    rw [publishers_setStage] at hbuild'
    split at hbuild'
    · cases hbuild'
      exact (buildPendingPublishBatch_ok hbuild).2
    · exact h.skipped q claim' build' hbuild'

end

/-! ## The step that publishes -/

variable {α : Type}

theorem mem_prefix_of_not_rel {R : α → α → Prop} {l pre : List α} (hl : l.Pairwise R)
    (hpre : pre <+: l) {x y : α} (hx : x ∈ pre) (hy : y ∈ l) (hR : ¬ R x y) : y ∈ pre := by
  obtain ⟨rest, rfl⟩ := hpre
  rcases mem_append.mp hy with hy | hy
  · exact hy
  · exact absurd ((pairwise_append.mp hl).2.2 x hx y hy) hR

theorem pair_sublist {R : α → α → Prop} {l : List α} (hl : l.Pairwise R) {x y : α} (hx : x ∈ l)
    (hy : y ∈ l) (hne : x ≠ y) (hR : ¬ R y x) : [x, y].Sublist l := by
  obtain ⟨l₁, l₂, rfl⟩ := append_of_mem hx
  have hy₂ : y ∈ l₂ := by
    rcases mem_append.mp hy with hy | hy
    · exact absurd ((pairwise_append.mp hl).2.2 y hy x mem_cons_self) hR
    · exact (mem_cons.mp hy).resolve_left fun h => hne h.symm
  have htail : [x, y].Sublist (x :: l₂) := (singleton_sublist.mpr hy₂).cons_cons x
  exact htail.trans (sublist_append_right l₁ _)

theorem BuildSound.sorted (hqueue : QueueSound s) (hc : ClaimSound s claim)
    (hb : BuildSound s claim build) :
    build.entries.Pairwise fun e e' => e.row.sequence < e'.row.sequence := by
  have hsub := hb.rows.trans hc.rows
  have hsorted : (s.queue.map QueueRow.claimed).Pairwise fun r r' => r.sequence < r'.sequence :=
    pairwise_map.mpr hqueue.sorted
  have hrows := hsorted.sublist hsub
  rw [pairwise_map] at hrows
  exact hrows

/-- A row that waits before a row of the batch is itself in the batch, or its changeset does not
wait. -/
theorem Ordered.batch_or_closed (hs : Sound root s) (h : Ordered s)
    (hstage : s.publishers p = .built claim build) (href : s.ref = claim.originalCommit)
    {e : PublishEntry} (he : e ∈ build.entries) (hr : r ∈ s.queue) (hnone : r.commit = none)
    (hlt : r.sequence < e.row.sequence) :
    r.claimed ∈ build.entries.map PublishEntry.row ∨
      ∃ c, s.changesets.get r.changeset = some c ∧ c.status ≠ .pendingPublish := by
  have hbuild := hs.claims.builds p claim build hstage
  have hpre := h.claims p claim (by rw [hstage]; rfl) href.symm
  have hsorted : (s.unlanded.map QueueRow.claimed).Pairwise fun r r' => r.sequence < r'.sequence :=
    pairwise_map.mpr (hs.queue.sorted.filter _)
  have hrow : e.row ∈ claim.rows := hbuild.rows.subset (mem_map_of_mem he)
  have hmem : r.claimed ∈ s.unlanded.map QueueRow.claimed :=
    mem_map_of_mem (mem_unlanded.mpr ⟨hr, hnone⟩)
  have hin : r.claimed ∈ claim.rows :=
    mem_prefix_of_not_rel hsorted hpre hrow hmem (Nat.lt_asymm hlt)
  exact h.skipped p claim build hstage r.claimed hin

theorem BatchLocked.get_of_not_waiting (hb : BatchLocked s build.entries)
    (hc : s.changesets.get id = some c)
    (hst : c.status ≠ .pendingPublish) : (publishBatch s now build).changesets.get id = some c := by
  refine (get_markChangesetsSubmitted_of_notMem (fun e he heq => ?_) _).trans hc
  obtain ⟨c', hc', hst'⟩ := hb.waits e he
  rw [heq, hc] at hc'
  cases hc'
  exact hst hst'

theorem Sound.commit_mem_history (hs : Sound root s) (hr : r ∈ s.queue) {k : CommitID}
    (hk : r.commit = some k) : k ∈ s.ref.history := by
  obtain ⟨e, he, -, -, rfl⟩ := hs.status.landed r hr k hk
  rw [hs.chain.chain]
  exact mem_append_left _ (mem_reverse.mpr (mem_map_of_mem he))

theorem ordered_published (hs : Sound root s) (h : Ordered s)
    (hstage : s.publishers p = .built claim build) (hentries : build.entries ≠ [])
    (href : s.ref = claim.originalCommit)
    (hlock : lockPendingPublishChangesets s build.entries = .ok ()) :
    Ordered ((publishBatch s now build).setStage p .idle) := by
  obtain ⟨hclaim, hbuild⟩ := hs.claims.of_built hstage
  have hb := batchLocked hs.queue hclaim hbuild hlock
  have hhistory := history_publishBatch now hbuild.made href
  have hbefore := fun {e : PublishEntry} (he : e ∈ build.entries) {r : QueueRow} (hr : r ∈ s.queue) =>
    h.batch_or_closed hs hstage href he hr
  refine ⟨?_, ?_, ?_, ?_, ?_⟩
  · -- every other claim was made at a commit that the ref has passed
    intro q claim' hclaim' horiginal
    rw [publishers_setStage] at hclaim'
    split at hclaim'
    · cases hclaim'
    · have hold := (hs.claims.claims q claim' hclaim').original
      rw [horiginal] at hold
      have hle := (CommitID.history_suffix_of_mem hold).length_le
      have hpos : 0 < build.entries.length := length_pos_iff.mpr hentries
      have hlen : ((publishBatch s now build).setStage p .idle).ref.history.length =
          build.entries.length + s.ref.history.length := by
        show (publishBatch s now build).ref.history.length = _
        rw [hhistory, length_append, length_reverse, length_map]
      omega
  · intro q claim' build' hbuild' row hrow
    rw [publishers_setStage] at hbuild'
    split at hbuild'
    · cases hbuild'
    · refine (h.skipped q claim' build' hbuild' row hrow).imp_right ?_
      rintro ⟨c, hc, hst⟩
      exact ⟨c, hb.get_of_not_waiting hc hst, hst⟩
  · intro r hr hnone r' hr' hsome hlt
    obtain ⟨hr, hnot⟩ | ⟨e, -, r₀, -, -, rfl⟩ := hb.mem_queue hs.queue hr
    · have hpassed : ∃ c, s.changesets.get r.changeset = some c ∧ c.status = .abandoned := by
        obtain ⟨hr', -⟩ | ⟨e, he, r₀, -, hclaimed, rfl⟩ := hb.mem_queue hs.queue hr'
        · exact h.overtaken r hr hnone r' hr' hsome hlt
        · -- the later row is in the batch, so this one was skipped
          rcases hbefore he hr hnone (by rw [hclaimed]; exact hlt) with hin | ⟨c, hc, hst⟩
          · obtain ⟨e', he', heq⟩ := mem_map.mp hin
            exact absurd heq (hnot e' he')
          · obtain ⟨c', hc', hst'⟩ := hs.status.waiting r hr hnone
            rw [hc] at hc'
            cases hc'
            exact ⟨c, hc, hst'.resolve_left hst⟩
      obtain ⟨c, hc, hst⟩ := hpassed
      exact ⟨c, hb.get_of_not_waiting hc (by rw [hst]; decide), hst⟩
    · cases hnone
  · intro r hr r' hr' k hk k' hk' hlt
    show [k', k].Sublist (publishBatch s now build).ref.history
    rw [hhistory]
    obtain ⟨hr, -⟩ | ⟨e, he, r₀, hr₀, hclaimed, rfl⟩ := hb.mem_queue hs.queue hr
    · obtain ⟨hr', -⟩ | ⟨e', he', r₀', -, -, rfl⟩ := hb.mem_queue hs.queue hr'
      · exact (h.order r hr r' hr' k hk k' hk' hlt).trans (sublist_append_right _ _)
      · cases hk'
        have hnew : [e'.commitId].Sublist (build.entries.map PublishEntry.commitId).reverse :=
          singleton_sublist.mpr (mem_reverse.mpr (mem_map_of_mem he'))
        have hold : [k].Sublist s.ref.history :=
          singleton_sublist.mpr (hs.commit_mem_history hr hk)
        exact hnew.append hold
    · cases hk
      obtain ⟨hr', -⟩ | ⟨e', he', r₀', -, hclaimed', rfl⟩ := hb.mem_queue hs.queue hr'
      · -- the earlier row waits, so it would have been passed by an older commit
        have hnone := hb.commit_none hs.status he hr₀ hclaimed
        obtain ⟨c, hc, hst⟩ := h.overtaken r₀ hr₀ hnone r' hr' (by rw [hk']; simp) hlt
        obtain ⟨c', hc', hst'⟩ := hb.waits e he
        rw [hclaimed, show r₀.claimed.changeset = r₀.changeset from rfl, hc] at hc'
        cases hc'
        rw [hst] at hst'
        cases hst'
      · cases hk'
        have hlt' : e.row.sequence < e'.row.sequence := by
          rw [hclaimed, hclaimed']
          exact hlt
        have hne : e ≠ e' := fun heq => Nat.lt_irrefl _ (heq ▸ hlt')
        have hpair := pair_sublist (hbuild.sorted hs.queue hclaim) he he' hne (Nat.lt_asymm hlt')
        exact (reverse_sublist.mpr (hpair.map PublishEntry.commitId)).trans
          (sublist_append_left _ _)
  · intro id c pid hc hparent hst
    -- the changeset before the batch, and whether the batch lands it
    have hold : ∃ c₀, s.changesets.get id = some c₀ ∧ c₀.parent = some pid ∧
        (c₀.status = .pendingPublish ∨ c₀.status = .submitted) ∧
        (c.status = .submitted → c₀.status = .submitted ∨
          ∃ e ∈ build.entries, e.row.changeset = id) := by
      obtain ⟨e, he, hid, c₀, hc₀, hst₀, rfl⟩ | ⟨-, hold⟩ := hb.get_cases hc
      · exact ⟨c₀, hc₀, hparent, .inl hst₀, fun _ => .inr ⟨e, he, hid⟩⟩
      · exact ⟨c, hold, hparent, hst, .inl⟩
    obtain ⟨c₀, hc₀, hparent₀, hst₀, hlands⟩ := hold
    obtain ⟨p₀, hp₀, hpst, hpsub, hrows⟩ := h.parents id c₀ pid hc₀ hparent₀ hst₀
    -- if the batch lands the changeset, its parent is landed or in the batch
    have hfirst : c.status = .submitted → p₀.status = .submitted ∨
        ∃ e ∈ build.entries, e.row.changeset = pid := by
      intro hsubmitted
      rcases hlands hsubmitted with hsub | ⟨e, he, hid⟩
      · exact .inl (hpsub hsub)
      · rcases hpst with hpend | hsub
        · obtain ⟨r, hr, hclaimed⟩ := hb.rows e he
          have hrid : r.changeset = id := (congrArg ClaimedRow.changeset hclaimed).trans hid
          obtain ⟨rp, hrp, hcs, hlt⟩ := hrows r hr hrid
          obtain ⟨rp', hrp', hcs', hnone⟩ := hs.status.pending pid p₀ hp₀ hpend
          have hsame : rp' = rp := hs.queue.eq_of_changeset_eq hrp' hrp (hcs'.trans hcs.symm)
          subst hsame
          rcases hbefore he hrp hnone (by rw [← hclaimed]; exact hlt) with hin | ⟨d, hd, hdst⟩
          · obtain ⟨e', he', heq⟩ := mem_map.mp hin
            exact .inr ⟨e', he', (congrArg ClaimedRow.changeset heq).trans hcs⟩
          · rw [hcs, hp₀] at hd
            cases hd
            exact absurd hpend hdst
        · exact .inl hsub
    have hrows' : ∀ r ∈ (publishBatch s now build).queue, r.changeset = id →
        ∃ rp ∈ (publishBatch s now build).queue, rp.changeset = pid ∧ rp.sequence < r.sequence := by
      intro r₁ hr₁ hrid
      rw [queue_publishBatch] at hr₁ ⊢
      obtain ⟨r, hr, rfl⟩ := mem_map.mp hr₁
      rw [changeset_mark] at hrid
      obtain ⟨rp, hrp, hcs, hlt⟩ := hrows r hr hrid
      refine ⟨rp.mark build.entries, mem_map_of_mem hrp, (changeset_mark _ rp).trans hcs, ?_⟩
      rw [sequence_mark, sequence_mark]
      exact hlt
    by_cases hpid : ∃ e ∈ build.entries, e.row.changeset = pid
    · obtain ⟨e, he, rfl⟩ := hpid
      exact ⟨_, get_markChangesetsSubmitted_of_mem hb.nodup he hp₀, .inr rfl, fun _ => rfl, hrows'⟩
    · have hother : ∀ e ∈ build.entries, e.row.changeset ≠ pid := fun e he heq => hpid ⟨e, he, heq⟩
      exact ⟨p₀, (get_markChangesetsSubmitted_of_notMem hother _).trans hp₀, hpst,
        fun hs => (hfirst hs).resolve_right hpid, hrows'⟩

/-! ## Every run -/

theorem ordered_start (root : Node) : Ordered (State.start root) where
  claims := fun _ _ h => by cases h
  skipped := fun _ _ _ h => by cases h
  overtaken := by simp [State.queue, State.start]
  order := by simp [State.queue, State.start]
  parents := by simp [State.start]

theorem Move.ordered {a : Action} (h : Move s a s') (halone : ClaimsAlone s a) (hs : Sound root s)
    (ho : Ordered s) : Ordered s' := by
  cases h with
  | prepares _ _ h =>
    exact ho.of_kept h.queue h.ref (fun _ _ => h.publishers ▸ id) (fun _ _ _ => h.publishers ▸ id)
      h.onlyPrepared
  | admitted now req a ps h => exact ordered_admitted ho hs h
  | abandoned now id c hc hchild hsub => exact ordered_abandoned ho hc hchild hsub
  | requeued _ _ h =>
    obtain ⟨hq, -, ⟨rows, publishers, rfl⟩, hclaims, hbuilds⟩ := h
    exact ho.of_kept hq rfl hclaims hbuilds .refl
  | claimed p now limit s' claim hidle hclaim => exact ordered_claimed ho hs.queue halone hclaim
  | built p now claim build hstage hbuild => exact ordered_built ho hstage hbuild
  | published p now claim build hstage hentries href hlock =>
    exact ordered_published hs ho hstage hentries href hlock

theorem ordered_run (root : Node) (as : List Action)
    (halone : Machine.Meets step ClaimsAlone (State.start root) as) :
    Sound root (Machine.run step (State.start root) as) ∧
      Ordered (Machine.run step (State.start root) as) :=
  Machine.run_induction (fun s => Sound root s ∧ Ordered s)
    (fun s a h hcond => ⟨sound_step h.1 a, (step_move s a).ordered hcond h.1 h.2⟩)
    ⟨sound_start root, ordered_start root⟩ halone

theorem Sound.row_of_submitted (hs : Sound root s) (hc : s.changesets.get id = some c)
    (hst : c.status = .submitted) :
    ∃ k, ∃ r ∈ s.queue, c.commit = some k ∧ r.changeset = id ∧ r.commit = some k := by
  obtain ⟨e, he, rfl⟩ := hs.status.closed id c hc hst
  obtain ⟨c', hc', -, hcommit⟩ := hs.status.submitted e he
  obtain ⟨r, hr, hcs, -, hrcommit⟩ := hs.status.logged e he
  rw [hc] at hc'
  cases hc'
  exact ⟨e.commit, r, hr, hcommit, hcs, hrcommit⟩

/-- **Publication in the order of admission**: in every run in which claims are made only while no
row is claimed, landed rows stand on the chain in the order of their sequence numbers, and a
changeset lands after the one it is stacked on. -/
theorem publication_in_admission_order (root : Node) (as : List Action)
    (halone : Machine.Meets step ClaimsAlone (State.start root) as) :
    RowsInOrder (Machine.run step (State.start root) as) ∧
      ParentsFirst (Machine.run step (State.start root) as) := by
  obtain ⟨hs, ho⟩ := ordered_run root as halone
  constructor
  · intro r hr r' hr' k hk k' hk' hlt
    exact ho.order _ (mem_map_of_mem hr) _ (mem_map_of_mem hr') k hk k' hk' hlt
  · intro id c pid k hc hst hparent hk
    obtain ⟨p, hp, -, hpsub, hrows⟩ := ho.parents id c pid hc hparent (.inr hst)
    -- the rows of the two changesets, with the commits they landed as
    obtain ⟨k₁, r, hr, hk₁, hrid, hrk⟩ := hs.row_of_submitted hc hst
    obtain ⟨kp, rp, hrp, hkp, hrpid, hrpk⟩ := hs.row_of_submitted hp (hpsub hst)
    rw [hk] at hk₁
    cases hk₁
    obtain ⟨rp', hrp', hcs, hlt⟩ := hrows r hr hrid
    have hsame : rp' = rp := hs.queue.eq_of_changeset_eq hrp' hrp (hcs.trans hrpid.symm)
    subst hsame
    exact ⟨p, kp, hp, hpsub hst, hkp, ho.order rp' hrp r hr kp hrpk k hrk hlt⟩

/-! ## A run that overtakes -/

/-- A slice over one account, without requirements. -/
def openSlice : Slice := ⟨"acme", [["acme"]], 0, [], false⟩

/-- A patchset that writes one file, built on the first commit of an empty repository. -/
def oneFile (path : Path) : PatchsetUpload where
  author := "ann"
  kind := ""
  base := .commit (.initial .nil)
  fileEdits := [.upsert path ⟨"blob_1", "", 0⟩]
  conflicts := []
  includedPaths := [["acme"]]
  readablePaths := []

/-- Two changesets, admitted one after the other. -/
def twoAdmitted : List Action :=
  [.setSlice "site" openSlice, .putBlob "blob_1" ⟨"hash_1", 3⟩,
    .create 1 "cs_1" "ann" ⟨"site", "one", "", none, none, none⟩,
    .create 2 "cs_2" "ann" ⟨"site", "two", "", none, none, none⟩,
    .addPatchset 3 "cs_1" none "ps_1" (oneFile ["acme", "site", "a.txt"]),
    .addPatchset 4 "cs_2" none "ps_2" (oneFile ["acme", "site", "b.txt"]),
    .submit 5 ⟨"cs_1", none, [], false⟩, .submit 6 ⟨"cs_2", none, [], false⟩]

/-- The first publisher claims the first row, the second one claims and publishes the second row,
and then the first row is published. -/
def overtaking : List Action :=
  twoAdmitted ++ [.claim 1 7 1, .claim 2 8 1, .build 2 9, .finalize 2 10, .build 1 11,
    .finalize 1 12, .release 1 13, .claim 1 14 1, .build 1 15, .finalize 1 16]

theorem not_rowsInOrder_overtaking :
    ¬ RowsInOrder (Machine.run step (State.start .nil) overtaking) := by
  decide +kernel

/-- One publisher, batch after batch. -/
def oneByOne : List Action :=
  twoAdmitted ++ [.claim 1 7 1, .build 1 8, .finalize 1 9, .claim 2 10 1, .build 2 11,
    .finalize 2 12]

theorem publication_in_admission_order_oneByOne :
    Machine.Meets step ClaimsAlone (State.start .nil) oneByOne ∧
      (Machine.run step (State.start .nil) oneByOne).outbox.map CommitPublished.changeset =
        ["cs_1", "cs_2"] ∧
      RowsInOrder (Machine.run step (State.start .nil) oneByOne) ∧
      ParentsFirst (Machine.run step (State.start .nil) oneByOne) :=
  ⟨by decide +kernel, by decide +kernel,
    publication_in_admission_order .nil oneByOne (by decide +kernel)⟩

end GitSlice
