import GitSlice.Cli.CheckDelivery

/-! # Check reports are kept
When the updates of a daemon's outboxes reach the server. An acknowledgement covers every update
before it, so an update that the server failed to store is dropped when a later one is acknowledged
on the same connection, and on a connection that stays up it is not sent again. `reports_kept` says
that nothing is lost when a failure ends the connection and no outbox is evicted: an update that is
not in its outbox any more was stored, unless it was dropped because the outbox was full, and what
the server handles on a connection without failures is everything that is left. -/

namespace GitSlice

open List Table

namespace CheckOutbox

open CheckReports (Update Store Faults handleCheckRunUpdate Run)

variable {secrets : RunID → List String} {daemon : String} {server₀ : Store}

/-- An outbox of a run: its updates are in order and behind the last acknowledged one. -/
structure BoxOk (emitted : List Update) (seq : Int) (conn : Nat) (id : RunID) (o : Outbox) : Prop where
  sorted : o.pending.Pairwise fun u u' => u.clientSeq < u'.clientSeq
  pending : ∀ u ∈ o.pending, u ∈ emitted ∧ u.runId = id ∧ o.acked < u.clientSeq
  acked : o.acked ≤ seq
  flushed : o.flushed ≤ seq
  queue : ∀ c, o.queue = some c → c ≤ conn

/-- What holds between the daemon and the server. `kept` says that no update is lost, `acks` that an
acknowledgement on the way covers stored updates only, and `sent`, as long as no store call has
failed on the connection, that what was sent on it is stored or still to be handled. -/
structure Inv (secrets : RunID → List String) (daemon : String) (server₀ : Store) (failed : Bool)
    (st : State) : Prop where
  well : WellEmitted st.emitted
  seqs : ∀ u ∈ st.emitted, u.clientSeq ≤ st.seq u.runId
  nonneg : ∀ id, 0 ≤ st.seq id
  ended : ∀ u ∈ st.emitted, u.final = true → u.runId ∈ st.ended
  fresh : ∀ u ∈ st.emitted, Fresh daemon server₀ u.runId
  holds : ∀ id, Fresh daemon server₀ id → Holds secrets daemon st.emitted st.server id
  logOnly : ∀ u ∈ st.dropped, isLogOnly u = true
  boxes : ∀ id o, st.outboxes.get id = some o → BoxOk st.emitted (st.seq id) st.conn id o
  terminal : ∀ id o, st.outboxes.get id = some o → o.terminal = true → id ∈ st.ended
  removed : ∀ u ∈ st.emitted, st.outboxes.get u.runId = none → u.runId ∈ st.ended
  kept : ∀ u ∈ st.emitted, u ∈ st.dropped ∨ st.Pending u ∨ Stored secrets st.server u
  acks : ∀ a ∈ st.acks, a.2 ≤ st.seq a.1 ∧
    ∀ u ∈ st.emitted, u.runId = a.1 → u.clientSeq ≤ a.2 →
      u ∈ st.dropped ∨ Stored secrets st.server u
  queued : ∀ u ∈ st.queue, u ∈ st.emitted ∧
    ∀ o, st.outboxes.get u.runId = some o → o.queue = some st.conn ∧ u.clientSeq ≤ o.flushed
  inOrder : st.queue.Pairwise fun u u' => u.runId = u'.runId → u.clientSeq < u'.clientSeq
  live : st.queue ≠ [] → st.up = true
  stale : ∀ u ∈ st.stale, u ∈ st.emitted
  sent : failed = false → st.up = true → ∀ id o, st.outboxes.get id = some o →
    o.queue = some st.conn →
    ∀ u ∈ st.emitted, u.runId = id → u.clientSeq ≤ o.flushed →
      u ∈ st.dropped ∨ Stored secrets st.server u ∨ u ∈ st.queue

section Steps

variable {failed : Bool} {st : State} {o : Outbox} {u : Update} {id : RunID} {outboxes : Table RunID Outbox}

theorem pending_set {o' : Outbox} (ho : outboxes.get id = some o)
    (hsub : ∀ u ∈ o.pending, u ∈ o'.pending)
    (h : ∃ b, outboxes.get u.runId = some b ∧ u ∈ b.pending) :
    ∃ b, (outboxes.set id o').get u.runId = some b ∧ u ∈ b.pending := by
  obtain ⟨b, hb, hmem⟩ := h
  refine exists_get_set hb hmem fun _ hget => hsub u ?_
  rw [ho] at hget
  cases hget
  exact hmem

theorem get_none_of_set {id' : RunID} (h : (outboxes.set id o).get id' = none) :
    outboxes.get id' = none := by
  rw [get_set] at h
  split_ifs at h
  exact h

@[simp] theorem runId_update (id : RunID) (seq : Int) (r : Report) :
    (r.update id seq).runId = id := by
  cases r <;> rfl

@[simp] theorem clientSeq_update (id : RunID) (seq : Int) (r : Report) :
    (r.update id seq).clientSeq = seq := by
  cases r <;> rfl

theorem seq_pushed (st : State) (id : RunID) (r : Report) (id' : RunID) :
    (st.pushed id r).seq id' = if id' = id then st.seq id + 1 else st.seq id' := by
  simp only [State.seq, State.pushed, get_set]
  split_ifs <;> rfl

theorem boxOk_push {emitted : List Update} {seq : Int} {conn : Nat}
    (hbox : BoxOk emitted seq conn id o) (hseqs : ∀ u ∈ emitted, u.runId = id → u.clientSeq ≤ seq)
    (hid : u.runId = id)
    (hseq : u.clientSeq = seq + 1) : BoxOk (emitted ++ [u]) (seq + 1) conn id (o.push u) := by
  obtain ⟨hsub, -, -⟩ := dropOverflow_spec (o.pending ++ [u]).length (o.pending ++ [u])
  have hsorted : (o.pending ++ [u]).Pairwise fun u u' => u.clientSeq < u'.clientSeq := by
    rw [pairwise_append]
    refine ⟨hbox.sorted, pairwise_singleton _ _, fun u' hu' u'' hu'' => ?_⟩
    obtain ⟨hem, hid', -⟩ := hbox.pending u' hu'
    rw [mem_singleton.mp hu'']
    have := hseqs u' hem hid'
    omega
  refine ⟨hsorted.sublist hsub, fun u' hu' => ?_, hbox.acked.trans (by omega),
    hbox.flushed.trans (by omega), hbox.queue⟩
  rcases mem_append.mp (hsub.subset hu') with hu' | hu'
  · obtain ⟨hem, hid', hlt⟩ := hbox.pending u' hu'
    exact ⟨mem_append_left _ hem, hid', hlt⟩
  · rw [mem_singleton.mp hu']
    refine ⟨mem_append_right _ mem_cons_self, hid, ?_⟩
    show o.acked < u.clientSeq
    have := hbox.acked
    omega

variable (h : Inv secrets daemon server₀ failed st)
include h

theorem Inv.acked (hu : u ∈ st.emitted)
    (ho : st.outboxes.get u.runId = some o) (hle : u.clientSeq ≤ o.acked) :
    u ∈ st.dropped ∨ Stored secrets st.server u := by
  rcases h.kept u hu with hdrop | ⟨o', ho', hmem⟩ | hstored
  · exact .inl hdrop
  · rw [ho, Option.some.injEq] at ho'
    subst ho'
    have := ((h.boxes _ _ ho).pending u hmem).2.2
    omega
  · exact .inr hstored

theorem inv_flush (ho : st.outboxes.get id = some o) :
    Inv secrets daemon server₀ failed (st.flush id o) := by
  rw [State.flush]
  split_ifs with hup
  swap
  · rw [set_eq_self ho]
    exact h
  have hbox := h.boxes id o ho
  obtain ⟨hmin, hall, hlast⟩ := flushLoop_snd (o.start st.conn) o.pending
  have hfresh : o.fresh st.conn = o.pending.filter fun u => o.start st.conn < u.clientSeq :=
    flushLoop_fst hbox.sorted
  have hfreshMem : ∀ u ∈ o.fresh st.conn, u ∈ o.pending ∧ o.start st.conn < u.clientSeq := by
    intro u hu
    rw [hfresh] at hu
    simpa using hu
  have hstart : o.start st.conn ≤ st.seq id := by
    rw [Outbox.start]
    split_ifs
    · exact hbox.flushed
    · exact hbox.acked
  -- no update of the run is on the way unless the outbox was sent on this connection
  have hqueue : ∀ u ∈ st.queue, u.runId = id →
      o.queue = some st.conn ∧ u.clientSeq ≤ o.start st.conn := by
    rintro u hu rfl
    obtain ⟨hconn, hle⟩ := (h.queued u hu).2 o ho
    rw [Outbox.start, if_pos hconn]
    exact ⟨hconn, hle⟩
  refine { h with
    boxes := ?_, terminal := ?_, removed := ?_, kept := ?_, queued := ?_, inOrder := ?_, live := fun _ => hup
    sent := ?_ }
  · refine forall_set h.boxes ⟨hbox.sorted, hbox.pending, hbox.acked, ?_, ?_⟩
    · rcases hlast with heq | ⟨u, hu, heq⟩
      · exact heq.trans_le hstart
      · obtain ⟨hem, hid, -⟩ := hbox.pending u hu
        have hseq := h.seqs u hem
        rw [hid] at hseq
        exact heq.trans_le hseq
    · rintro conn ⟨⟩
      exact le_rfl
  · exact forall_set h.terminal (h.terminal id o ho)
  · exact fun u hu hnone => h.removed u hu (get_none_of_set hnone)
  · intro u hu
    have hsame : ∀ u ∈ o.pending, u ∈ (o.flush st.conn).pending := fun _ h => h
    exact (h.kept u hu).imp_right (Or.imp_left (pending_set ho hsame))
  · intro u hu
    rcases mem_append.mp hu with hu | hu
    · refine ⟨(h.queued u hu).1, fun b hb => ?_⟩
      rcases get_set_cases hb with ⟨hid, rfl⟩ | ⟨-, hb⟩
      · exact ⟨rfl, (hqueue u hu hid).2.trans hmin⟩
      · exact (h.queued u hu).2 b hb
    · obtain ⟨hmem, -⟩ := hfreshMem u hu
      obtain ⟨hem, hid, -⟩ := hbox.pending u hmem
      refine ⟨hem, fun b hb => ?_⟩
      rcases get_set_cases hb with ⟨-, rfl⟩ | ⟨hne, -⟩
      · exact ⟨rfl, hall u hmem⟩
      · exact absurd hid hne
  · rw [pairwise_append]
    refine ⟨h.inOrder, ?_, fun u hu u' hu' heq => ?_⟩
    · rw [hfresh]
      refine (hbox.sorted.sublist filter_sublist).imp ?_
      intro u u' hlt _
      exact hlt
    · obtain ⟨hmem, hlt⟩ := hfreshMem u' hu'
      have hid : u.runId = id := heq.trans (hbox.pending u' hmem).2.1
      exact (hqueue u hu hid).2.trans_lt hlt
  · intro hf _ id' b hb hconn u hu hid hle
    rcases get_set_cases hb with ⟨rfl, rfl⟩ | ⟨-, hb⟩
    · by_cases hold : u.clientSeq ≤ o.start st.conn
      · -- it was sent before, or acknowledged on an earlier connection
        rw [Outbox.start] at hold
        split_ifs at hold with hsame
        · exact (h.sent hf hup id' o ho hsame u hu hid hold).imp_right
            (Or.imp_right (mem_append_left _))
        · subst hid
          exact (h.acked hu ho hold).imp_right .inl
      · rcases h.kept u hu with hdrop | ⟨b, hb, hmem⟩ | hstored
        · exact .inl hdrop
        · rw [hid, ho, Option.some.injEq] at hb
          subst hb
          refine .inr (.inr (mem_append_right _ ?_))
          rw [hfresh]
          simpa using ⟨hmem, not_le.mp hold⟩
        · exact .inr (.inl hstored)
    · exact (h.sent hf hup id' b hb hconn u hu hid hle).imp_right (Or.imp_right (mem_append_left _))

/-- The server handles an update that was emitted. -/
theorem Inv.server (hu : u ∈ st.emitted) (f : Faults) :
    Inv secrets daemon server₀ failed
      { st with server := (handleCheckRunUpdate secrets daemon st.server u f).1 } := by
  have hown := h.holds u.runId (h.fresh u hu)
  have hstored : ∀ u' ∈ st.emitted, Stored secrets st.server u' →
      Stored secrets (handleCheckRunUpdate secrets daemon st.server u f).1 u' := fun u' hu' =>
    stored_handle h.well hu hown hu'
  refine { h with
    holds := fun id hid => holds_handle h.well hu hown (h.holds id hid), kept := ?_, acks := ?_, sent := ?_ }
  · exact fun u' hu' => (h.kept u' hu').imp_right (Or.imp_right (hstored u' hu'))
  · intro a ha
    obtain ⟨hle, hcover⟩ := h.acks a ha
    exact ⟨hle, fun u' hu' hid hseq => (hcover u' hu' hid hseq).imp_right (hstored u' hu')⟩
  · intro hf hup id o ho hconn u' hu' hid hle
    exact (h.sent hf hup id o ho hconn u' hu' hid hle).imp_right (Or.imp_left (hstored u' hu'))

theorem inv_handleStale (i : Nat) (f : Faults) :
    Inv secrets daemon server₀ failed (step secrets daemon st (.handleStale i f)) := by
  rw [step]
  cases hget : st.stale[i]? with
  | none => exact h
  | some u =>
    have hs := h.server (h.stale u (mem_of_getElem? hget)) f
    exact { hs with stale := fun u' hu' => h.stale u' (mem_of_mem_eraseIdx hu') }

omit h in
/-- The server handles the next update: if it acknowledges it, everything before it was stored. -/
theorem inv_handle (h : Inv secrets daemon server₀ false st) (f : Faults) :
    Inv secrets daemon server₀ (fails f) (step secrets daemon st (.handle f)) := by
  rw [step]
  cases hqueue : st.queue with
  | nil =>
    exact { h with sent := fun _ => h.sent rfl }
  | cons u rest =>
    have hmem : u ∈ st.queue := by rw [hqueue]; exact mem_cons_self
    have hup := h.live (by rw [hqueue]; exact cons_ne_nil u rest)
    obtain ⟨hu, hsent⟩ := h.queued u hmem
    have hs := h.server hu f
    have hown := h.holds u.runId (h.fresh u hu)
    have horder := h.inOrder
    rw [hqueue] at horder
    obtain ⟨hfirst, hrest⟩ := pairwise_cons.mp horder
    have hnext : ∀ u' ∈ st.queue, u' = u ∨ u' ∈ rest := by
      rw [hqueue]
      exact fun _ => mem_cons.mp
    -- what was emitted before the update is stored with it
    have hbefore : Stored secrets (handleCheckRunUpdate secrets daemon st.server u f).1 u →
        ∀ u' ∈ st.emitted, u'.runId = u.runId → u'.clientSeq ≤ u.clientSeq →
          u' ∈ st.dropped ∨ Stored secrets (handleCheckRunUpdate secrets daemon st.server u f).1 u' := by
      intro hnow u' hu' hid hle
      rcases hs.kept u' hu' with hdrop | ⟨o, ho, -⟩ | hstored
      · exact .inl hdrop
      · rw [hid] at ho
        obtain ⟨hconn, hflushed⟩ := hsent o ho
        rcases hs.sent rfl hup u.runId o ho hconn u' hu' hid (hle.trans hflushed) with hd | hstored | hq
        · exact .inl hd
        · exact .inr hstored
        · rcases hnext u' hq with rfl | hq
          · exact .inr hnow
          · have := hfirst u' hq hid.symm
            omega
      · exact .inr hstored
    refine { hs with acks := ?_, queued := ?_, inOrder := hrest, live := fun _ => hup, sent := ?_ }
    · intro a ha
      simp only at ha
      split_ifs at ha with hacked
      · rcases mem_append.mp ha with ha | ha
        · exact hs.acks a ha
        · rw [mem_singleton.mp ha]
          exact ⟨h.seqs u hu, hbefore (stored_of_handle h.well hu hown (.inl hacked))⟩
      · exact hs.acks a ha
    · intro u' hu'
      refine h.queued u' ?_
      rw [hqueue]
      exact mem_cons_of_mem u hu'
    · intro hf _ id o ho hconn u' hu' hid hle
      rcases hs.sent rfl hup id o ho hconn u' hu' hid hle with hd | hstored | hq
      · exact .inl hd
      · exact .inr (.inl hstored)
      · rcases hnext u' hq with rfl | hq
        · exact .inr (.inl (stored_of_handle h.well hu hown (.inr hf)))
        · exact .inr (.inr hq)

theorem Inv.replaced
    (hold : ∀ id b, outboxes.get id = some b → BoxOk st.emitted (st.seq id) st.conn id b ∧
      ∃ o, st.outboxes.get id = some o ∧ b.terminal = o.terminal ∧ b.queue = o.queue ∧
        b.flushed = o.flushed)
    (hremoved : ∀ u ∈ st.emitted, outboxes.get u.runId = none → u.runId ∈ st.ended)
    (hkept : ∀ u ∈ st.emitted, st.Pending u → u ∈ st.dropped ∨
      (∃ b, outboxes.get u.runId = some b ∧ u ∈ b.pending) ∨ Stored secrets st.server u) :
    Inv secrets daemon server₀ failed { st with outboxes := outboxes } := by
  refine { h with
    boxes := fun id b hb => (hold id b hb).1, terminal := ?_, removed := hremoved, kept := ?_, queued := ?_
    sent := ?_ }
  · intro id b hb hterminal
    obtain ⟨-, o, ho, hsame, -⟩ := hold id b hb
    exact h.terminal id o ho (hsame ▸ hterminal)
  · intro u hu
    rcases h.kept u hu with hdrop | hpending | hstored
    · exact .inl hdrop
    · exact hkept u hu hpending
    · exact .inr (.inr hstored)
  · intro u hu
    refine ⟨(h.queued u hu).1, fun b hb => ?_⟩
    obtain ⟨-, o, ho, -, hqueue, hflushed⟩ := hold _ b hb
    rw [hqueue, hflushed]
    exact (h.queued u hu).2 o ho
  · intro hf hup id b hb hconn
    obtain ⟨-, o, ho, -, hqueue, hflushed⟩ := hold id b hb
    rw [hflushed]
    exact h.sent hf hup id o ho (hqueue ▸ hconn)

theorem inv_ack : Inv secrets daemon server₀ failed (step secrets daemon st .ack) := by
  rw [step]
  cases hacks : st.acks with
  | nil => exact h
  | cons a rest =>
    obtain ⟨id, seq⟩ := a
    have hmem : (id, seq) ∈ st.acks := by rw [hacks]; exact mem_cons_self
    obtain ⟨hseq, hcover⟩ := h.acks _ hmem
    have hrest : Inv secrets daemon server₀ failed { st with acks := rest } := by
      refine { h with acks := fun a ha => h.acks a ?_ }
      rw [hacks]
      exact mem_cons_of_mem _ ha
    simp only [State.handleAck]
    cases ho : st.outboxes.get id with
    | none => exact hrest
    | some o =>
      have hbox := h.boxes id o ho
      -- what leaves the outbox is covered by the acknowledgement
      have hleft : ∀ {outboxes : Table RunID Outbox},
          (∀ id', id' ≠ id → outboxes.get id' = st.outboxes.get id') →
          (∀ u ∈ (o.ack seq).pending, ∃ b, outboxes.get id = some b ∧ u ∈ b.pending) →
          ∀ u ∈ st.emitted, st.Pending u → u ∈ st.dropped ∨
            (∃ b, outboxes.get u.runId = some b ∧ u ∈ b.pending) ∨ Stored secrets st.server u := by
        rintro outboxes hother hself u hu ⟨b, hb, hpending⟩
        by_cases hid : u.runId = id
        · rw [hid, ho, Option.some.injEq] at hb
          subst hb
          by_cases hle : u.clientSeq ≤ seq
          · exact (hcover u hu hid hle).imp_right .inr
          · refine .inr (.inl (hid ▸ hself u (mem_filter.mpr ⟨hpending, ?_⟩)))
            have := (hbox.pending u hpending).2.2
            simp only [decide_eq_true_eq]
            omega
        · exact .inr (.inl ⟨b, by rw [hother _ hid, hb], hpending⟩)
      simp only
      split_ifs with hdone
      · refine hrest.replaced ?_ ?_ ?_
        · intro id' b hb
          rw [get_erase] at hb
          split_ifs at hb
          exact ⟨h.boxes id' b hb, b, hb, rfl, rfl, rfl⟩
        · intro u hu hnone
          rw [get_erase] at hnone
          split_ifs at hnone with hid
          · exact hid ▸ h.terminal id o ho hdone.2
          · exact h.removed u hu hnone
        · refine hleft (fun id' hid => by rw [get_erase, if_neg hid]) fun u hu => ?_
          rw [hdone.1] at hu
          cases hu
      · refine hrest.replaced ?_ (fun u hu hnone => h.removed u hu (get_none_of_set hnone)) ?_
        · intro id' b hb
          rcases get_set_cases hb with ⟨rfl, rfl⟩ | ⟨-, hb⟩
          · refine ⟨⟨hbox.sorted.sublist filter_sublist, fun u hu => ?_, max_le hbox.acked hseq,
              hbox.flushed, hbox.queue⟩, o, ho, rfl, rfl, rfl⟩
            obtain ⟨hpending, hlt⟩ := mem_filter.mp hu
            obtain ⟨hem, hid, -⟩ := hbox.pending u hpending
            exact ⟨hem, hid, of_decide_eq_true hlt⟩
          · exact ⟨h.boxes id' b hb, b, hb, rfl, rfl, rfl⟩
        · exact hleft (fun id' hid => get_set_of_ne _ _ hid) fun u hu =>
            ⟨o.ack seq, get_set_self _ _ _, hu⟩

theorem inv_close (failed' : Bool) :
    Inv secrets daemon server₀ failed' st.close := by
  rw [State.close]
  exact { h with
    acks := by simp, queued := by simp, inOrder := List.Pairwise.nil, live := by simp
    stale := forall_mem_append.mpr ⟨h.stale, fun u hu => (h.queued u hu).1⟩, sent := fun _ => nofun }

theorem inv_connect :
    Inv secrets daemon server₀ false (step secrets daemon st .connect) := by
  have hclosed := inv_close h false
  rw [step]
  refine { hclosed with boxes := ?_, queued := by simp [State.close], live := by simp [State.close], sent := ?_ }
  · intro id o ho
    have hbox := hclosed.boxes id o ho
    exact { hbox with queue := fun c hc => (hbox.queue c hc).trans (Nat.le_succ _) }
  · intro _ _ id o ho hconn
    have hle := (hclosed.boxes id o ho).queue _ hconn
    exact absurd hle (Nat.not_succ_le_self _)

theorem boxOk_outbox (id : RunID) : BoxOk st.emitted (st.seq id) st.conn id (st.outbox id) := by
  rw [State.outbox]
  cases ho : st.outboxes.get id with
  | some o => exact h.boxes id o ho
  | none => exact ⟨List.Pairwise.nil, by simp [Outbox.new], h.nonneg id, h.nonneg id, by simp [Outbox.new]⟩

variable {r : Report}

theorem wellEmitted_append (hr : r ≠ .log "") (hended : id ∉ st.ended) :
    WellEmitted (st.emitted ++ [r.update id (st.seq id + 1)]) := by
  have hnonneg := h.nonneg id
  have hnew : ∀ u ∈ st.emitted, u.runId = id → u.clientSeq ≠ st.seq id + 1 := by
    rintro u hu rfl heq
    have := h.seqs u hu
    omega
  refine ⟨?_, ?_, ?_⟩
  · rw [forall_mem_append, forall_mem_singleton]
    exact ⟨h.well.reports, by simp; omega, r, hr, by simp⟩
  · intro u hu u' hu' hid hseq
    rcases mem_append.mp hu with hu | hu <;> rcases mem_append.mp hu' with hu' | hu'
    · exact h.well.distinct u hu u' hu' hid hseq
    · rw [mem_singleton.mp hu', runId_update] at hid
      rw [mem_singleton.mp hu', clientSeq_update] at hseq
      exact absurd hseq (hnew u hu hid)
    · rw [mem_singleton.mp hu, runId_update] at hid
      rw [mem_singleton.mp hu, clientSeq_update] at hseq
      exact absurd hseq.symm (hnew u' hu' hid.symm)
    · rw [mem_singleton.mp hu, mem_singleton.mp hu']
  · intro u hu u' hu' hid hf hf'
    rcases mem_append.mp hu with hu | hu <;> rcases mem_append.mp hu' with hu' | hu'
    · exact h.well.final u hu u' hu' hid hf hf'
    · rw [mem_singleton.mp hu', runId_update] at hid
      exact absurd (hid ▸ h.ended u hu hf) hended
    · rw [mem_singleton.mp hu, runId_update] at hid
      exact absurd (hid ▸ h.ended u' hu' hf') hended
    · rw [mem_singleton.mp hu, mem_singleton.mp hu']

theorem inv_push (hfresh : Fresh daemon server₀ id) (hr : r ≠ .log "") (hended : id ∉ st.ended) :
    Inv secrets daemon server₀ failed { st.pushed id r with
      outboxes := st.outboxes.set id ((st.outbox id).push (r.update id (st.seq id + 1))) } := by
  have hseqs : ∀ id', st.seq id' ≤ (st.pushed id r).seq id' := by
    intro id'
    rw [seq_pushed]
    split_ifs with hid
    · rw [hid]; omega
    · exact le_rfl
  have hbox := boxOk_push (u := r.update id (st.seq id + 1)) (boxOk_outbox h id)
    (fun u hu hid => hid ▸ h.seqs u hu) (by simp) (by simp)
  obtain ⟨-, hlog, hall⟩ := dropOverflow_spec ((st.outbox id).pending ++ [r.update id (st.seq id + 1)]).length
    ((st.outbox id).pending ++ [r.update id (st.seq id + 1)])
  have hnew : ∀ u ∈ [r.update id (st.seq id + 1)], u.runId = id ∧ u.clientSeq = st.seq id + 1 := by
    simp
  have hmore : ∀ id' ∈ st.ended, id' ∈ (st.pushed id r).ended := by
    intro id' hid'
    simp only [State.pushed]
    split_ifs
    · exact mem_cons_of_mem id hid'
    · exact hid'
  have hlast : (r.update id (st.seq id + 1)).final = true → id ∈ (st.pushed id r).ended := by
    intro hf
    simp only [State.pushed]
    rw [if_pos hf]
    exact mem_cons_self
  -- an update on the way, or one of the outbox's connection, tells that the outbox exists
  have hbehind : ∀ o, st.outboxes.get id = some o → st.outbox id = o := by
    intro o ho
    rw [State.outbox, ho, Option.getD_some]
  refine {
    well := wellEmitted_append h hr hended
    seqs := ?_, nonneg := fun id' => (h.nonneg id').trans (hseqs id'), ended := ?_
    fresh := forall_mem_append.mpr ⟨h.fresh, forall_mem_singleton.mpr (by rwa [runId_update])⟩
    holds := fun id' hid' => (h.holds id' hid').mono fun u hu => mem_append_left _ hu
    logOnly := forall_mem_append.mpr ⟨h.logOnly, hlog⟩, boxes := ?_, terminal := ?_, removed := ?_, kept := ?_, acks := ?_, queued := ?_
    inOrder := h.inOrder, live := h.live, stale := fun u hu => mem_append_left _ (h.stale u hu), sent := ?_ }
  · intro u hu
    rcases mem_append.mp hu with hu | hu
    · exact (h.seqs u hu).trans (hseqs u.runId)
    · obtain ⟨hid, hseq⟩ := hnew u hu
      show u.clientSeq ≤ (st.pushed id r).seq u.runId
      rw [seq_pushed, if_pos hid, hseq]
  · intro u hu hf
    rcases mem_append.mp hu with hu | hu
    · exact hmore _ (h.ended u hu hf)
    · rw [mem_singleton.mp hu] at hf ⊢
      rw [runId_update]
      exact hlast hf
  · intro id' b hb
    show BoxOk (st.emitted ++ [_]) ((st.pushed id r).seq id') st.conn id' b
    rcases get_set_cases hb with ⟨rfl, rfl⟩ | ⟨hne, hb⟩
    · rw [seq_pushed, if_pos rfl]
      exact hbox
    · rw [seq_pushed, if_neg hne]
      have hold := h.boxes id' b hb
      exact { hold with pending := fun u hu => (hold.pending u hu).imp_left (mem_append_left _) }
  · intro id' b hb hterminal
    rcases get_set_cases hb with ⟨rfl, rfl⟩ | ⟨hne, hb⟩
    · by_cases hf : (r.update id' (st.seq id' + 1)).final = true
      · exact hlast hf
      · refine hmore id' ?_
        have hold : (st.outbox id').terminal = true := by
          simpa [Outbox.push, hf] using hterminal
        cases ho : st.outboxes.get id' with
        | some o => exact h.terminal id' o ho (hbehind o ho ▸ hold)
        | none =>
          rw [State.outbox, ho] at hold
          cases hold
    · exact hmore id' (h.terminal id' b hb hterminal)
  · intro u hu hnone
    have hne : u.runId ≠ id := by
      intro heq
      rw [heq, get_set_self] at hnone
      cases hnone
    rcases mem_append.mp hu with hu | hu
    · exact hmore _ (h.removed u hu (get_none_of_set hnone))
    · exact absurd (hnew u hu).1 hne
  · intro u hu
    have hput : u.runId = id → u ∈ (st.outbox id).pending ++ [r.update id (st.seq id + 1)] →
        u ∈ (st.pushed id r).dropped ∨ ∃ o, (st.outboxes.set id
          ((st.outbox id).push (r.update id (st.seq id + 1)))).get u.runId = some o ∧
            u ∈ o.pending := by
      intro hid hmem
      rcases hall u hmem with hkept | hdrop
      · exact .inr ⟨_, by rw [hid, get_set_self], hkept⟩
      · exact .inl (mem_append_right _ hdrop)
    rcases mem_append.mp hu with hu | hu
    · rcases h.kept u hu with hdrop | ⟨o, ho, hmem⟩ | hstored
      · exact .inl (mem_append_left _ hdrop)
      · by_cases hid : u.runId = id
        · rw [hid] at ho
          have hmem' : u ∈ (st.outbox id).pending := by rwa [hbehind o ho]
          exact (hput hid (mem_append_left _ hmem')).imp_right .inl
        · exact .inr (.inl ⟨o, by rw [get_set_of_ne _ _ hid, ho], hmem⟩)
      · exact .inr (.inr hstored)
    · exact (hput (hnew u hu).1 (mem_append_right _ hu)).imp_right .inl
  · intro a ha
    obtain ⟨hle, hcover⟩ := h.acks a ha
    refine ⟨hle.trans (hseqs a.1), fun u hu hid hseq => ?_⟩
    rcases mem_append.mp hu with hu | hu
    · exact (hcover u hu hid hseq).imp_left (mem_append_left _)
    · obtain ⟨hid', hseq'⟩ := hnew u hu
      rw [← hid, hid'] at hle
      omega
  · intro u hu
    obtain ⟨hem, hsent⟩ := h.queued u hu
    refine ⟨mem_append_left _ hem, fun b hb => ?_⟩
    rcases get_set_cases hb with ⟨hid, rfl⟩ | ⟨hne, hb⟩
    · cases ho : st.outboxes.get u.runId with
      | none => exact absurd (hid ▸ h.removed u hem ho) hended
      | some o =>
        have hold := hbehind o (hid ▸ ho)
        rw [hold]
        exact hsent o ho
    · exact hsent b hb
  · intro hf hup id' b hb hconn u hu hid hle
    rcases get_set_cases hb with ⟨rfl, rfl⟩ | ⟨hne, hb⟩
    · cases ho : st.outboxes.get id' with
      | none =>
        rw [State.outbox, ho] at hconn
        cases hconn
      | some o =>
        rw [hbehind o ho] at hconn hle
        rcases mem_append.mp hu with hu | hu
        · exact (h.sent hf hup id' o ho hconn u hu hid hle).imp_left (mem_append_left _)
        · have hflushed := (h.boxes id' o ho).flushed
          have hseq := (hnew u hu).2
          have hle : u.clientSeq ≤ o.flushed := hle
          omega
    · rcases mem_append.mp hu with hu | hu
      · exact (h.sent hf hup id' b hb hconn u hu hid hle).imp_left (mem_append_left _)
      · exact absurd (hid.symm.trans (hnew u hu).1) hne

theorem inv_emit (hfresh : Fresh daemon server₀ id) (hroom : Roomy st (.emit id r)) :
    Inv secrets daemon server₀ failed (st.emit id r) := by
  rw [State.emit]
  split_ifs with hnothing
  · exact h
  · rw [not_or, not_or] at hnothing
    obtain ⟨-, hr, hended⟩ := hnothing
    have hpushed := inv_push h hfresh hr hended
    have hsent : st.sent id r = State.flush { st.pushed id r with
        outboxes := st.outboxes.set id ((st.outbox id).push (r.update id (st.seq id + 1))) } id
        ((st.outbox id).push (r.update id (st.seq id + 1))) := by
      simp only [State.flush, Table.set_set]
      rfl
    simp only
    rw [enforceLimit_of_le _ hroom, hsent]
    exact inv_flush hpushed (get_set_self _ _ _)

theorem inv_step {e : Event} (hroom : Roomy st e)
    (hfresh : ∀ id r, e = .emit id r → Fresh daemon server₀ id)
    (hcareful : Careful failed [e] = true) :
    Inv secrets daemon server₀ (failedAfter failed [e]) (step secrets daemon st e) := by
  cases e with
  | emit id r => exact inv_emit h (hfresh id r rfl) hroom
  | connect => exact inv_connect h
  | disconnect => exact inv_close h failed
  | resend id =>
    rw [step]
    cases ho : st.outboxes.get id with
    | none => exact h
    | some o => exact inv_flush h ho
  | handle f =>
    have hfailed : failed = false := by simpa [Careful] using hcareful
    subst hfailed
    exact inv_handle h f
  | handleStale i f => exact inv_handleStale h i f
  | ack => exact inv_ack h

end Steps

/-! ## All events -/

section Runs

variable {failed : Bool} {st st' : State} {events : List Event}

theorem careful_cons (failed : Bool) (e : Event) (es : List Event) :
    Careful failed (e :: es) = true ↔
      Careful failed [e] = true ∧ Careful (failedAfter failed [e]) es = true := by
  cases e <;> simp [Careful, failedAfter]
  intro h
  simp [h]

theorem failedAfter_cons (failed : Bool) (e : Event) (es : List Event) :
    failedAfter failed (e :: es) = failedAfter (failedAfter failed [e]) es := by
  cases e <;> rfl

theorem inv_run (h : Inv secrets daemon server₀ failed st) (hcareful : Careful failed events = true)
    (hroom : Machine.Meets (step secrets daemon) Roomy st events)
    (hfresh : ∀ id r, .emit id r ∈ events → Fresh daemon server₀ id) :
    Inv secrets daemon server₀ (failedAfter failed events) (Machine.run (step secrets daemon) st events) := by
  induction events generalizing st failed with
  | nil => exact h
  | cons e es ih =>
    rw [careful_cons] at hcareful
    rw [failedAfter_cons]
    have hone := inv_step h hroom.1 (fun id r he => hfresh id r (he ▸ mem_cons_self)) hcareful.1
    exact ih hone hcareful.2 hroom.2 fun id r hmem => hfresh id r (mem_cons_of_mem e hmem)

theorem inv_initial (server : Store) : Inv secrets daemon server false (initial server) := by
  constructor
  case well => exact ⟨by simp [initial], by simp [initial], by simp [initial]⟩
  case holds =>
    rintro id ⟨⟨run, hrun, hdaemon, hsuperseded, hopen⟩, hlogs⟩
    refine ⟨⟨run, hrun, hdaemon, hsuperseded, fun ht => ?_⟩, fun seq row hrow => ?_⟩
    · rw [hopen] at ht
      cases ht
    · have hnone : (initial server).server.logs.get (id, seq) = none := hlogs seq
      rw [hnone] at hrow
      cases hrow
  -- there are no updates and no outboxes yet
  all_goals simp [initial, State.seq]

/-- The outbox of a run was sent on the connection as far as it goes. -/
def Flushed (st : State) (id : RunID) : Prop :=
  ∀ o, st.outboxes.get id = some o →
    o.queue = some st.conn ∧ ∀ u ∈ o.pending, u.clientSeq ≤ o.flushed

theorem resend_spec (hup : st.up = true) {id : RunID}
    (hst : step secrets daemon st (.resend id) = st') :
    st'.emitted = st.emitted ∧ st'.dropped = st.dropped ∧ st'.up = true ∧
      (∀ id', st'.outboxes.get id' = none ↔ st.outboxes.get id' = none) ∧ Flushed st' id ∧
      ∀ id', Flushed st id' → Flushed st' id' := by
  rw [← hst, step]
  cases ho : st.outboxes.get id with
  | none =>
    refine ⟨rfl, rfl, hup, fun _ => Iff.rfl, fun o ho' => ?_, fun _ h => h⟩
    rw [ho] at ho'
    cases ho'
  | some o =>
    simp only [State.flush, hup, if_true]
    have hsent : o.queue = o.queue ∧ ∀ u ∈ o.pending, u.clientSeq ≤ (o.flush st.conn).flushed :=
      ⟨rfl, (flushLoop_snd (o.start st.conn) o.pending).2.1⟩
    refine ⟨trivial, trivial, trivial, fun id' => ⟨get_none_of_set, fun hnone => ?_⟩,
      fun b hb => ?_, fun id' h b hb => ?_⟩
    · rw [get_set, if_neg, hnone]
      rintro rfl
      rw [ho] at hnone
      cases hnone
    · rw [get_set_self, Option.some.injEq] at hb
      subst hb
      exact ⟨rfl, hsent.2⟩
    · rcases get_set_cases hb with ⟨-, rfl⟩ | ⟨-, hb⟩
      · exact ⟨rfl, hsent.2⟩
      · exact h b hb

theorem resendAll_spec (hup : st.up = true) {ids : List RunID}
    (hst : Machine.run (step secrets daemon) st (ids.map .resend) = st') :
    st'.emitted = st.emitted ∧ st'.dropped = st.dropped ∧ st'.up = true ∧
      (∀ id, st'.outboxes.get id = none ↔ st.outboxes.get id = none) ∧
      ∀ id, id ∈ ids ∨ Flushed st id → Flushed st' id := by
  induction ids generalizing st with
  | nil => exact ⟨hst ▸ rfl, hst ▸ rfl, hst ▸ hup, hst ▸ fun _ => Iff.rfl, hst ▸ fun id h => by simpa using h⟩
  | cons id ids ih =>
    obtain ⟨hem, hdrop, hup', hnone, hself, hother⟩ := @resend_spec secrets daemon st _ hup id rfl
    obtain ⟨ihem, ihdrop, ihup, ihnone, ihflushed⟩ := ih hup' hst
    refine ⟨ihem.trans hem, ihdrop.trans hdrop, ihup, fun id' => (ihnone id').trans (hnone id'), ?_⟩
    rintro id' (hmem | hflushed)
    · rcases mem_cons.mp hmem with rfl | hmem
      · exact ihflushed id' (.inr hself)
      · exact ihflushed id' (.inl hmem)
    · exact ihflushed id' (.inr (hother id' hflushed))

theorem handleAll_spec (h : Inv secrets daemon server₀ false st) :
    let st' := Machine.run (step secrets daemon) st (List.replicate st.queue.length (.handle .none))
    Inv secrets daemon server₀ false st' ∧ st'.queue = [] ∧ st'.emitted = st.emitted ∧
      st'.dropped = st.dropped ∧
      st'.outboxes = st.outboxes ∧ st'.conn = st.conn ∧ st'.up = st.up := by
  induction hlen : st.queue.length generalizing st with
  | zero => exact ⟨h, length_eq_zero_iff.mp hlen, rfl, rfl, rfl, rfl, rfl⟩
  | succ n ih =>
    have hstep := inv_handle h .none
    obtain ⟨u, rest, hqueue⟩ := exists_cons_of_length_eq_add_one hlen
    have hrest : (step secrets daemon st (.handle .none)).queue.length = n := by
      rw [hqueue, length_cons] at hlen
      simp only [step, hqueue]
      omega
    obtain ⟨hinv, hempty, hem, hdrop, hboxes, hconn, hup⟩ := ih hstep hrest
    have hsame : ∃ server acks, step secrets daemon st (.handle .none) =
        { st with queue := rest, server := server, acks := acks } := by
      simp only [step, hqueue]
      exact ⟨_, _, rfl⟩
    obtain ⟨server, acks, hst⟩ := hsame
    exact ⟨hinv, hempty, hem.trans (by rw [hst]), hdrop.trans (by rw [hst]),
      hboxes.trans (by rw [hst]), hconn.trans (by rw [hst]), hup.trans (by rw [hst])⟩

/-- On a connection that is up and on which no store call failed, sending the outboxes and handling
what was sent stores everything. -/
theorem stored_drain (h : Inv secrets daemon server₀ false st) (hup : st.up = true) {u : Update}
    (hu : u ∈ st.emitted) (hdrop : u ∉ st.dropped) :
    Stored secrets (drain secrets daemon st).server u := by
  have hids : (st.outboxes.rows.map fun r => Event.resend r.1) =
      (st.outboxes.rows.map Prod.fst).map .resend := by
    rw [map_map]
    rfl
  obtain ⟨hem, hdropped, hup', hnone, hflushed⟩ :=
    @resendAll_spec secrets daemon st _ hup (st.outboxes.rows.map Prod.fst) rfl
  have hcareful : ∀ ids : List RunID, Careful false (ids.map .resend) = true ∧
      failedAfter false (ids.map .resend) = false := by
    intro ids
    induction ids with
    | nil => exact ⟨rfl, rfl⟩
    | cons id ids ih => exact ih
  have hroom : ∀ (ids : List RunID) (st : State),
      Machine.Meets (step secrets daemon) Roomy st (ids.map .resend) := by
    intro ids
    induction ids with
    | nil => exact fun _ => trivial
    | cons id ids ih => exact fun st => ⟨trivial, ih _⟩
  have hresent := inv_run h (hcareful _).1 (hroom (st.outboxes.rows.map Prod.fst) st) (by simp)
  rw [(hcareful _).2] at hresent
  rw [drain, hids]
  generalize Machine.run (step secrets daemon) st ((st.outboxes.rows.map Prod.fst).map .resend) = resent at *
  obtain ⟨hinv, hempty, hem', hdropped', hboxes, hconn, hup''⟩ := handleAll_spec hresent
  generalize Machine.run (step secrets daemon) resent _ = handled at *
  rw [← hem, ← hem'] at hu
  rw [← hdropped, ← hdropped'] at hdrop
  rcases hinv.kept u hu with hd | ⟨o, ho, hmem⟩ | hstored
  · exact absurd hd hdrop
  · rw [hboxes] at ho
    have hin : u.runId ∈ st.outboxes.rows.map Prod.fst := by
      by_contra hnot
      rw [← get_eq_none_iff, ← hnone, ho] at hnot
      cases hnot
    obtain ⟨hqueue, hall⟩ := hflushed u.runId (.inl hin) o ho
    rw [← hconn] at hqueue
    rw [← hboxes] at ho
    rcases hinv.sent rfl (hup''.trans hup') u.runId o ho hqueue u hu rfl (hall u hmem) with hd | hs | hq
    · exact absurd hd hdrop
    · exact hs
    · rw [hempty] at hq
      cases hq
  · exact hstored

/-- **No report is lost** when a failure ends the connection and no outbox is evicted: an update
that was emitted is in its outbox or stored, unless it is a chunk of the log that was dropped on
overflow; and on a connection without failures that stays up everything is stored. -/
theorem reports_kept {server : Store}
    (hfresh : ∀ id r, .emit id r ∈ events → Fresh daemon server id)
    (hcareful : Careful false events = true)
    (hroom : Machine.Meets (step secrets daemon) Roomy (initial server) events) :
    (∀ u ∈ (after secrets daemon server events).emitted, u ∉ (after secrets daemon server events).dropped →
      (after secrets daemon server events).Pending u ∨
        Stored secrets (after secrets daemon server events).server u) ∧
    (∀ u ∈ (after secrets daemon server events).dropped, isLogOnly u = true) ∧
    ((after secrets daemon server events).up = true → failedAfter false events = false →
      ∀ u ∈ (after secrets daemon server events).emitted, u ∉ (after secrets daemon server events).dropped →
        Stored secrets (drain secrets daemon (after secrets daemon server events)).server u) := by
  have h := inv_run (inv_initial server) hcareful hroom hfresh
  refine ⟨fun u hu hdrop => ?_, h.logOnly, fun hup hfailed u hu hdrop => ?_⟩
  · rcases h.kept u hu with hd | hkept
    · exact absurd hd hdrop
    · exact hkept
  · rw [hfailed] at h
    exact stored_drain h hup hu hdrop

/-- A server with the run `r` of daemon `d`. -/
def oneRunServer : Store := ⟨CheckReports.oneRun, .empty⟩

/-- The final report of a run that passed. -/
def passed : Report := .final ⟨.passed, rfl⟩ 0 ""

/-- A store call fails for the first chunk, and a new connection brings it again. -/
theorem reports_kept_reconnect :
    Stored (fun _ => []) (drain (fun _ => []) "d" (after (fun _ => []) "d" oneRunServer
      [.connect, .emit "r" (.log "a"), .handle { Faults.none with appendLog := true }, .disconnect,
        .emit "r" passed, .connect])).server (passed.update "r" 2) := by
  refine (reports_kept (fun id r hmem => ?_) (by decide +kernel) ?_).2.2 (by decide +kernel)
    (by decide +kernel)
    _ (by decide +kernel) (by decide +kernel)
  · have hid : id = "r" := by
      simp only [mem_cons, Event.emit.injEq, reduceCtorEq, not_mem_nil, or_false, false_or] at hmem
      rcases hmem with h | h <;> exact h.1
    subst hid
    exact ⟨⟨_, rfl, rfl, rfl, rfl⟩, fun _ => rfl⟩
  · exact ⟨trivial, by decide +kernel, trivial, trivial, by decide +kernel, trivial, trivial⟩

/-- Reports that are lost. A store call fails for the first chunk, the second one is acknowledged,
and the first one leaves the outbox without being stored. A store call fails for the final status;
the connection stays up, nothing is sent again, and the run is never finished. -/
theorem reports_lost :
    ((after (fun _ => []) "d" oneRunServer [.connect, .emit "r" (.log "a"), .emit "r" (.log "b"),
        .handle { Faults.none with appendLog := true }, .handle .none, .ack]).outboxes.get "r").map
        Outbox.pending = some [] ∧
      (after (fun _ => []) "d" oneRunServer [.connect, .emit "r" (.log "a"), .emit "r" (.log "b"),
        .handle { Faults.none with appendLog := true }, .handle .none, .ack]).server.logs.get ("r", 1) = none ∧
      (drain (fun _ => []) "d" (after (fun _ => []) "d" oneRunServer [.connect, .emit "r" passed,
        .handle { Faults.none with updateStatus := true }])).queue = [] ∧
      ((drain (fun _ => []) "d" (after (fun _ => []) "d" oneRunServer [.connect, .emit "r" passed,
        .handle { Faults.none with updateStatus := true }])).server.runs.get "r").map (fun run => run.row.status) =
        some .running := by
  decide +kernel

end Runs

end CheckOutbox

end GitSlice
