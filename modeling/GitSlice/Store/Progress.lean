import GitSlice.Store.Order

/-! # Progress of the publisher
A call of `PublishPending` with no other publisher at work. The row of a changeset that is abandoned
after admission stays in the queue: a claim takes it, the build skips it, and finalize puts it back
where it was. So a call gets past such rows only while its limit reaches beyond them
(`publishPending_progress`); with as many of them in front as the limit, every call ends the same
way (`stuck_behind_abandoned`). -/

namespace GitSlice

open List

/-- The times of the transactions of a call. -/
structure PublishTimes where
  reap : Time
  claim : Time
  build : Time
  finalize : Time
  release : Time

/-- `PublishPending`, its transactions one after the other. -/
def publishPending (s : State) (t : PublishTimes) (limit : Nat) : State × Except StoreError Nat :=
  let s := reapStalePendingPublishClaims s t.reap
  if claimedRows s limit = [] then (s, .ok 0)
  else
    match claimPendingPublishBatch s t.claim limit with
    | none => (s, .error .notFound)
    | some (s, claim) =>
      match buildPendingPublishBatch s t.build claim with
      | .error e => (resetClaim s t.release claim, .error e)
      | .ok build =>
        match finalizePendingPublishBatch s t.finalize claim build with
        | (s, .error e) => (resetClaim s t.release claim, .error e)
        | (s, .ok ()) => (s, .ok build.entries.length)

/-- The status of a changeset. -/
def State.statusOf (s : State) (id : ChangesetID) : Option ChangesetStatus :=
  (s.changesets.get id).map Changeset.status

/-- How many rows wait before the first one whose changeset waits as well. -/
def State.deadRows (s : State) : Nat :=
  (s.pendingPublish.filter fun r => r.status = .pending).findIdx fun r =>
    s.statusOf r.changeset = some .pendingPublish

variable {s : State}

section

variable (halone : ∀ r ∈ s.pendingPublish, r.status ≠ .publishing)
include halone

theorem reap_eq_self (now : Time) : reapStalePendingPublishClaims s now = s := by
  have hrows : ∀ r ∈ s.pendingPublish, (if r.status = .publishing ∧
      r.updatedAt + pendingPublishClaimTimeout < now then
        { r with status := .pending, updatedAt := now } else r) = r :=
    fun r hr => if_neg fun h => halone r hr h.1
  rw [reapStalePendingPublishClaims, map_congr_left hrows, map_id']

/-- Behind the dead rows is the row of a changeset that waits, if there is one. -/
theorem deadRows_lt {root : Node} (hs : Sound root s) {id : ChangesetID}
    (hid : s.statusOf id = some .pendingPublish) :
    s.deadRows < (s.pendingPublish.filter fun r => r.status = .pending).length := by
  obtain ⟨c, hc, hst⟩ := Option.map_eq_some_iff.mp hid
  obtain ⟨q, hq, rfl, hnone⟩ := hs.status.pending id c hc hst
  -- The row of the waiting changeset is itself one of those that wait.
  have hmem := mem_unlanded.mpr ⟨hq, hnone⟩
  rw [unlanded_eq hs.queue halone] at hmem
  obtain ⟨r, hr, rfl⟩ := mem_map.mp hmem
  exact findIdx_lt_length_of_exists ⟨r, hr, decide_eq_true hid⟩

end

/-- A limit beyond the dead rows takes in a row whose changeset waits. -/
theorem live_mem_claimedRows
    (hlt : s.deadRows < (s.pendingPublish.filter fun r => r.status = .pending).length) {limit : Nat}
    (hlimit : s.deadRows < if limit = 0 then 64 else limit) :
    ∃ row ∈ claimedRows s limit, s.statusOf row.changeset = some .pendingPublish := by
  refine ⟨_, mem_map_of_mem (mem_take_iff_getElem.mpr
    ⟨s.deadRows, lt_min hlimit hlt, rfl⟩), ?_⟩
  exact of_decide_eq_true (findIdx_getElem (w := hlt))

/-- What publishing does to the changeset of an entry. -/
theorem statusOf_publishBatch {now : Time} {build : PendingPublishBuild} {e : PublishEntry}
    (he : e ∈ build.entries) (hst : s.statusOf e.row.changeset = some .pendingPublish) :
    (publishBatch s now build).statusOf e.row.changeset = some .submitted := by
  obtain ⟨c, hc, -⟩ := Option.map_eq_some_iff.mp hst
  rw [State.statusOf, publishBatch, markChangesetsSubmitted, Table.get_update, hc]
  obtain ⟨e', he'⟩ := Option.isSome_iff_exists.mp
    (List.find?_isSome (p := fun x => decide (x.row.changeset = e.row.changeset)).mpr
      ⟨e, he, decide_eq_true rfl⟩)
  rw [he']
  rfl

/-- What a call that returns without an error has to do: publish a changeset that waited. -/
def Progresses (s : State) (t : PublishTimes) (limit : Nat) : Prop :=
  ∀ n, (publishPending s t limit).2 = .ok n → 0 < n ∧ ∃ id, s.statusOf id = some .pendingPublish ∧
    (publishPending s t limit).1.statusOf id = some .submitted

/-- A claim that reaches a row whose changeset waits leads to a publication. -/
theorem progresses_of_live (halone : ∀ r ∈ s.pendingPublish, r.status ≠ .publishing) {limit : Nat}
    {row : ClaimedRow} (hrow : row ∈ claimedRows s limit)
    (hlive : s.statusOf row.changeset = some .pendingPublish) (t : PublishTimes) :
    Progresses s t limit := by
  intro n h
  simp only [publishPending, reap_eq_self halone, if_neg (ne_nil_of_mem hrow)] at h ⊢
  split at h
  · cases h
  rename_i s₁ claim hclaim
  obtain ⟨hrows, -, -, hs₁⟩ := claimPendingPublishBatch_some hclaim
  have hkept : s₁.changesets = s.changesets := by rw [hs₁]
  have hlive₁ : s₁.statusOf row.changeset = some .pendingPublish := by rwa [State.statusOf, hkept]
  split at h
  · cases h
  rename_i build hbuild
  -- The live row is not one that the build skips.
  have hentry : row ∈ build.entries.map PublishEntry.row := by
    refine ((buildPendingPublishBatch_ok hbuild).2 row (hrows ▸ hrow)).resolve_right ?_
    rintro ⟨c, hc, hst⟩
    rw [State.statusOf, hc] at hlive₁
    exact hst (Option.some.inj hlive₁)
  obtain ⟨e, he, rfl⟩ := mem_map.mp hentry
  split at h
  · cases h
  rename_i s₂ hfinal
  cases h
  refine ⟨length_pos_of_mem he, _, hlive, ?_⟩
  rw [finalizePendingPublishBatch, if_neg (ne_nil_of_mem he)] at hfinal
  split_ifs at hfinal
  · cases hfinal
  split at hfinal <;> cases hfinal
  exact statusOf_publishBatch he hlive₁

/-- The build skips rows whose changesets do not wait. -/
theorem publishableRows_dead {rows : List ClaimedRow} (h : ∀ row ∈ rows, ∃ c,
    s.changesets.get row.changeset = some c ∧ c.status ≠ .pendingPublish) :
    publishableRows s rows = .ok ([], rows.map ClaimedRow.sequence) := by
  induction rows with
  | nil => rfl
  | cons row rows ih =>
    obtain ⟨⟨c, hc, hst⟩, hrest⟩ := forall_mem_cons.mp h
    rw [publishableRows, publishableRow, hc, ih hrest]
    simp only [if_neg hst]
    rfl

/-- A claim that takes only rows whose changesets do not wait publishes nothing: the call ends
without an error. -/
theorem publishPending_stuck (halone : ∀ r ∈ s.pendingPublish, r.status ≠ .publishing) {limit : Nat}
    (href : ∃ root, s.rootTree s.ref = some root) (hne : claimedRows s limit ≠ [])
    (hdead : ∀ row ∈ claimedRows s limit, ∃ c, s.changesets.get row.changeset = some c ∧
      c.status ≠ .pendingPublish) (t : PublishTimes) : (publishPending s t limit).2 = .ok 0 := by
  obtain ⟨root, hroot⟩ := href
  simp only [publishPending, reap_eq_self halone, if_neg hne]
  split
  · rename_i hclaim
    simp [claimPendingPublishBatch, hne, hroot] at hclaim
  rename_i s₁ claim hclaim
  obtain ⟨hrows, -, -, hs₁⟩ := claimPendingPublishBatch_some hclaim
  have hdead₁ : ∀ row ∈ claim.rows, ∃ c, s₁.changesets.get row.changeset = some c ∧
      c.status ≠ .pendingPublish := by
    rw [hrows, hs₁]
    exact hdead
  rw [buildPendingPublishBatch, publishableRows_dead hdead₁]
  rfl

section

variable {root : Node} (hs : Sound root s) (halone : ∀ r ∈ s.pendingPublish, r.status ≠ .publishing)
include hs

/-- The tree of the ref's commit is there. -/
theorem Sound.exists_rootTree : ∃ root, s.rootTree s.ref = some root := by
  obtain ⟨row, hrow⟩ := hs.chain.present _ s.ref.self_mem_history
  exact ⟨row.rootTree, by rw [State.rootTree, hrow, Option.map_some]⟩

include halone

/-- A limit that does not reach beyond the dead rows takes only these. -/
theorem dead_of_mem_claimedRows {limit : Nat}
    (hlimit : (if limit = 0 then 64 else limit) ≤ s.deadRows) {row : ClaimedRow}
    (hrow : row ∈ claimedRows s limit) :
    ∃ c, s.changesets.get row.changeset = some c ∧ c.status ≠ .pendingPublish := by
  obtain ⟨r, hr, rfl⟩ := mem_map.mp hrow
  obtain ⟨i, hi, rfl⟩ := mem_take_iff_getElem.mp hr
  have hlt := lt_min_iff.mp hi
  have hnot := not_of_lt_findIdx (hlt.1.trans_le hlimit)
  -- A row that waits belongs to a changeset that is there.
  have hmem : PendingPublish.queueRow _ ∈ s.unlanded :=
    unlanded_eq hs.queue halone ▸ mem_map_of_mem (getElem_mem hlt.2)
  obtain ⟨hq, hnone⟩ := mem_unlanded.mp hmem
  obtain ⟨c, hc, -⟩ := hs.status.waiting _ hq hnone
  refine ⟨c, hc, fun hst => of_decide_eq_false hnot ?_⟩
  exact Option.map_eq_some_iff.mpr ⟨c, hc, hst⟩

end

/-- **The publisher makes progress past dead rows** exactly when its limit reaches beyond them: in
every reachable state in which no row is claimed and a changeset waits. -/
theorem publishPending_progress (root : Node) (as : List Action) {s : State}
    (hs : s = Machine.run step (State.start root) as)
    (halone : ∀ r ∈ s.pendingPublish, r.status ≠ .publishing) (id : ChangesetID)
    (hid : s.statusOf id = some .pendingPublish) (limit : Nat) (t : PublishTimes) :
    Progresses s t limit ↔ s.deadRows < if limit = 0 then 64 else limit := by
  have hsound : Sound root s := hs ▸ sound_run root as
  have hlt := deadRows_lt halone hsound hid
  constructor
  · intro h
    by_contra hlimit
    have hdead : ∀ row ∈ claimedRows s limit, ∃ c, s.changesets.get row.changeset = some c ∧
        c.status ≠ .pendingPublish :=
      fun row hrow => dead_of_mem_claimedRows hsound halone (not_lt.mp hlimit) hrow
    -- A row waits, so the claim is not empty.
    have hne : claimedRows s limit ≠ [] := by
      rw [claimedRows, Ne, map_eq_nil_iff, take_eq_nil_iff, not_or]
      exact ⟨by split <;> omega, ne_nil_of_length_pos (Nat.zero_lt_of_lt hlt)⟩
    exact absurd (h 0 (publishPending_stuck halone hsound.exists_rootTree hne hdead t)).1
      (lt_irrefl 0)
  · intro hlimit
    obtain ⟨row, hrow, hlive⟩ := live_mem_claimedRows hlt hlimit
    exact progresses_of_live halone hrow hlive t

/-- The first of two admitted changesets is abandoned. -/
def firstAbandoned : State :=
  Machine.run step (State.start .nil) (twoAdmitted ++ [.abandon 7 "cs_1"])

theorem publishPending_progress_firstAbandoned :
    (publishPending firstAbandoned ⟨8, 9, 10, 11, 12⟩ 2).2 = .ok 1 ∧
      ∃ id, firstAbandoned.statusOf id = some .pendingPublish ∧
        (publishPending firstAbandoned ⟨8, 9, 10, 11, 12⟩ 2).1.statusOf id = some .submitted :=
  have h : (publishPending firstAbandoned ⟨8, 9, 10, 11, 12⟩ 2).2 = .ok 1 := by decide +kernel
  ⟨h, ((publishPending_progress .nil _ rfl (by decide +kernel) "cs_2" (by decide +kernel) 2 _).mpr
    (by decide +kernel) _ h).2⟩

/-- With a limit of one row, the abandoned changeset is all that a call sees. The other one waits,
and a larger limit would publish it. -/
theorem stuck_behind_abandoned :
    (∀ r ∈ firstAbandoned.pendingPublish, r.status ≠ .publishing) ∧
      firstAbandoned.statusOf "cs_2" = some .pendingPublish ∧
      (publishPending firstAbandoned ⟨8, 9, 10, 11, 12⟩ 2).2 = .ok 1 ∧
      (publishPending firstAbandoned ⟨8, 9, 10, 11, 12⟩ 1).2 = .ok 0 ∧
      (publishPending firstAbandoned ⟨8, 9, 10, 11, 12⟩ 1).1.statusOf "cs_2" =
        some .pendingPublish := by
  decide +kernel

end GitSlice
