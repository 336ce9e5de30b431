import GitSlice.Library.Machine
import GitSlice.Webhooks.FanOut

/-! # Attempts of a webhook delivery
Dispatchers claim a delivery under a lease, send it and record the attempt: `attempt` of the
dispatcher over `ClaimDueWebhookDeliveries`, `ClaimWebhookDelivery` and `RecordWebhookAttempt` of
the store. Each statement changes a row by itself, so the machine is about one delivery, with any
number of dispatchers that hold a copy of it. Times are in seconds.

The record does not look at the row it overwrites. As long as nobody is slower than their lease, the
delivery ends after at most `maxAttempts` sends and stays ended (`delivery_ends`), because a claim
takes no row whose lease runs; a dispatcher that is slower opens it again
(`late_record_reopens`). -/

namespace GitSlice.Webhooks

/-- The states of a delivery. -/
inductive DeliveryStatus where
  | pending
  | succeeded
  | failed
deriving DecidableEq

/-- A row of `webhook_deliveries`. -/
structure DeliveryRow where
  event : EventKind
  status : DeliveryStatus
  attempts : Nat
  nextAttemptAt : Nat
  leaseUntil : Option Nat

/-- `sendResult`: the error, empty for none, and whether retrying cannot help. -/
structure SendResult where
  err : String
  final : Bool

/-- A dispatcher that has claimed the delivery: its copy, and the result once it has sent it. -/
structure Sender where
  delivery : DeliveryRow
  result : Option SendResult

/-- A row with the copies that dispatchers hold. -/
structure DeliveryState where
  row : DeliveryRow
  senders : List Sender
  /-- How often it was sent. -/
  sends : Nat
  /-- How many attempts were recorded. -/
  recorded : Nat

/-- A delivery as it is created. -/
def DeliveryState.start (event : EventKind) (next : Nat) : DeliveryState :=
  ⟨⟨event, .pending, 0, next, none⟩, [], 0, 0⟩

/-- `MaxAttempts`. -/
def maxAttempts : Nat := 7

/-- Seconds. -/
def deliveryLease : Nat := 2 * 60

/-- Seconds, by attempt. -/
def retryDelays : List Nat := [60, 5 * 60, 30 * 60, 2 * 3600, 6 * 3600, 12 * 3600]

/-- What `attempt` records after a send. -/
def attempt (delivery : DeliveryRow) (result : SendResult) (now : Nat) : DeliveryRow :=
  let attempts := delivery.attempts + 1
  if result.err = "" then { delivery with attempts, status := .succeeded, nextAttemptAt := now }
  else if result.final ∨ maxAttempts ≤ attempts ∨ delivery.event = .ping then
    { delivery with attempts, status := .failed, nextAttemptAt := now }
  else
    let delay := retryDelays.getD (min (attempts - 1) (retryDelays.length - 1)) 0
    { delivery with attempts, status := .pending, nextAttemptAt := now + delay }

/-- What can happen to a delivery. -/
inductive DeliveryAction where
  /-- `ClaimDueWebhookDeliveries`. -/
  | claimDue (now : Nat)
  /-- `ClaimWebhookDelivery`, of `DeliverNow`. -/
  | claim (now : Nat)
  /-- A holder sends, and gets a result. -/
  | send (sender : Nat) (result : SendResult)
  /-- `RecordWebhookAttempt`. -/
  | record (sender now : Nat)

/-- A pending row that nobody holds is claimed. -/
def claimRow (st : DeliveryState) (now : Nat) : DeliveryState :=
  if st.row.status = .pending ∧ ∀ t ∈ st.row.leaseUntil, t < now then
    let row := { st.row with leaseUntil := some (now + deliveryLease) }
    { st with row, senders := st.senders ++ [⟨row, none⟩] }
  else st

/-- One action. -/
def deliveryStep (st : DeliveryState) : DeliveryAction → DeliveryState
  | .claimDue now => if st.row.nextAttemptAt ≤ now then claimRow st now else st
  | .claim now => claimRow st now
  | .send i result =>
    match st.senders[i]? with
    | some ⟨delivery, none⟩ =>
      { st with senders := st.senders.set i ⟨delivery, some result⟩, sends := st.sends + 1 }
    | _ => st
  | .record i now =>
    match st.senders[i]? with
    | some ⟨delivery, some result⟩ =>
      { st with
        row := { attempt delivery result now with leaseUntil := none }
        senders := st.senders.eraseIdx i
        recorded := st.recorded + 1 }
    | _ => st

/-- Nobody is slower than their lease: when somebody tries to claim the delivery, the lease of every
dispatcher that has still to record an attempt runs. -/
def InTime (st : DeliveryState) : DeliveryAction → Prop
  | .claimDue now | .claim now => ∀ x ∈ st.senders, ∀ t ∈ x.delivery.leaseUntil, now ≤ t
  | _ => True

/-! ## The invariant -/

/-- At most one dispatcher **holds** the delivery, and its copy is up to date. -/
structure Held (st : DeliveryState) : Prop where
  attempts : st.row.attempts = st.recorded
  bound : st.recorded ≤ maxAttempts
  waiting : st.row.status = .pending → st.recorded < maxAttempts
  free : st.senders = [] → st.sends = st.recorded
  alone : ∀ x ∈ st.senders, st.senders = [x] ∧ st.row.status = .pending ∧
    x.delivery.attempts = st.recorded ∧ st.sends = st.recorded + x.result.isSome.toNat
  /-- The lease of the holder is that of the row. -/
  lease : ∀ x ∈ st.senders, ∃ t, x.delivery.leaseUntil = some t ∧ st.row.leaseUntil = some t

theorem attempts_attempt (d : DeliveryRow) (r : SendResult) (now : Nat) :
    (attempt d r now).attempts = d.attempts + 1 := by
  simp only [attempt]
  split_ifs <;> rfl

theorem attempt_pending {d : DeliveryRow} {r : SendResult} {now : Nat}
    (h : (attempt d r now).status = .pending) : d.attempts + 1 < maxAttempts := by
  simp only [attempt] at h
  split_ifs at h with herr hlast
  exact Nat.lt_of_not_le fun hmax => hlast (.inr (.inl hmax))

variable {st : DeliveryState}

/-- A delivery that nobody holds is claimed by one dispatcher. -/
theorem Held.claims_free (h : Held st) (hfree : st.senders = []) (now : Nat) :
    Held (claimRow st now) := by
  simp only [claimRow, hfree]
  split_ifs with hclaim
  · exact { h with
      free := fun hnil => by cases hnil
      alone := fun x hx => by
        cases List.mem_singleton.mp hx
        exact ⟨rfl, hclaim.1, h.attempts, h.free hfree⟩
      lease := fun x hx => by
        cases List.mem_singleton.mp hx
        exact ⟨_, rfl, rfl⟩ }
  · exact h

/-- A claim keeps the invariant when nobody is slower than their lease. -/
theorem Held.claims (h : Held st) {now : Nat}
    (hlease : ∀ x ∈ st.senders, ∀ t ∈ x.delivery.leaseUntil, now ≤ t) : Held (claimRow st now) := by
  by_cases hfree : st.senders = []
  · exact h.claims_free hfree now
  -- The lease of the row is that of a holder, and it runs.
  obtain ⟨x, hx⟩ := List.exists_mem_of_ne_nil _ hfree
  obtain ⟨t, hcopy, hrow⟩ := h.lease x hx
  rw [claimRow, if_neg]
  · exact h
  · rintro ⟨-, hover⟩
    exact absurd (hover t hrow) (not_lt.mpr (hlease x hx t hcopy))

/-- A sender that is there is the only one. -/
theorem Held.sender (h : Held st) {i : Nat} {x : Sender} (hi : st.senders[i]? = some x) :
    i = 0 ∧ st.senders = [x] := by
  obtain ⟨hone, -⟩ := h.alone x (List.mem_of_getElem? hi)
  rw [hone, List.getElem?_singleton] at hi
  split_ifs at hi with hzero
  exact ⟨hzero, hone⟩

theorem Held.step (h : Held st) {a : DeliveryAction} (ha : InTime st a) :
    Held (deliveryStep st a) := by
  cases a with
  | claimDue now =>
    simp only [deliveryStep]
    split_ifs
    · exact h.claims ha
    · exact h
  | claim now => exact h.claims ha
  | send i result =>
    simp only [deliveryStep]
    split
    · rename_i delivery hi
      obtain ⟨rfl, hone⟩ := h.sender hi
      obtain ⟨-, hpending, hcopy, hsends⟩ := h.alone _ (List.mem_of_getElem? hi)
      rw [hone]
      exact { h with
        free := fun hnil => by cases hnil
        alone := fun x hx => by
          cases List.mem_singleton.mp hx
          exact ⟨rfl, hpending, hcopy, congrArg (· + 1) hsends⟩
        lease := fun x hx => by
          cases List.mem_singleton.mp hx
          exact h.lease ⟨delivery, none⟩ (List.mem_of_getElem? hi) }
    · exact h
  | record i now =>
    simp only [deliveryStep]
    split
    · rename_i delivery result hi
      obtain ⟨rfl, hone⟩ := h.sender hi
      obtain ⟨-, hpending, hcopy, hsends⟩ := h.alone _ (List.mem_of_getElem? hi)
      rw [hone]
      exact {
        attempts := (attempts_attempt delivery result now).trans (congrArg (· + 1) hcopy)
        bound := h.waiting hpending
        waiting := hcopy ▸ attempt_pending
        free := fun _ => hsends
        alone := fun x hx => by cases hx
        lease := fun x hx => by cases hx }
    · exact h

/-- Nothing happens to a delivery that has ended. -/
theorem Held.ended (h : Held st) (hst : st.row.status ≠ .pending) (as : List DeliveryAction) :
    Machine.run deliveryStep st as = st := by
  have hfree : st.senders = [] :=
    List.eq_nil_iff_forall_not_mem.mpr fun x hx => hst (h.alone x hx).2.1
  have hclaim : ∀ now, claimRow st now = st := fun now => if_neg fun hc => hst hc.1
  refine Machine.run_invariant (· = st) (fun s a hs => ?_) rfl as
  subst hs
  cases a <;> simp [deliveryStep, hfree, hclaim]

/-- **Deliveries end and stay ended**: if nobody is slower than their lease, a delivery is sent at
most `maxAttempts` times, its attempts are those recorded, and once it has succeeded or failed
nothing changes its status or sends it again. -/
theorem delivery_ends (event : EventKind) (next : Nat) (as bs : List DeliveryAction)
    (h : Machine.Meets deliveryStep InTime (.start event next) as) :
    let st := Machine.run deliveryStep (.start event next) as
    let st' := Machine.run deliveryStep (.start event next) (as ++ bs)
    st.sends ≤ maxAttempts ∧ st.row.attempts = st.recorded ∧
      (st.row.status ≠ .pending → st'.row.status = st.row.status ∧ st'.sends = st.sends) := by
  intro st st'
  have hheld : Held st := by
    refine Machine.run_induction Held (fun s a hs ha => hs.step ha) ?_ h
    exact ⟨rfl, Nat.zero_le _, fun _ => Nat.succ_pos 6, fun _ => rfl, (fun x hx => by cases hx),
      fun x hx => by cases hx⟩
  refine ⟨?_, hheld.attempts, fun hst => ?_⟩
  · rcases hsenders : st.senders with _ | ⟨x, xs⟩
    · exact hheld.free hsenders ▸ hheld.bound
    · obtain ⟨-, hpending, -, hsends⟩ := hheld.alone x (by simp [hsenders])
      have hlt := hheld.waiting hpending
      have hone : x.result.isSome.toNat ≤ 1 := Bool.toNat_le _
      omega
  · have hsame : st' = st := (Machine.run_append _ _ _ _).trans (hheld.ended hst bs)
    rw [hsame]
    exact ⟨rfl, rfl⟩

/-- A first attempt that times out, with another dispatcher looking for work meanwhile, and a second
one that arrives. -/
def retried : List DeliveryAction :=
  [.claimDue 0, .claimDue 30, .send 0 ⟨"timeout", false⟩, .record 0 31, .claimDue 100,
    .send 0 ⟨"", false⟩, .record 0 105]

theorem delivery_ends_retried :
    (Machine.run deliveryStep (.start .push 0) retried).row.status = .succeeded ∧
      (Machine.run deliveryStep (.start .push 0) retried).row.attempts = 2 ∧
      ∀ bs, (Machine.run deliveryStep (.start .push 0) (retried ++ bs)).row.status = .succeeded :=
  have h := delivery_ends .push 0 retried
  have hmeets : Machine.Meets deliveryStep InTime (.start .push 0) retried := by
    simp [Machine.Meets, InTime, retried, deliveryStep, DeliveryState.start, claimRow,
      deliveryLease]
  ⟨by decide +kernel, by decide +kernel, fun bs => ((h bs hmeets).2.2 (by decide +kernel)).1⟩

/-- The first dispatcher is slower than its lease; a second one claims the delivery and succeeds. -/
def late : List DeliveryAction :=
  [.claimDue 0, .send 0 ⟨"timeout", false⟩, .claimDue 130, .send 1 ⟨"", false⟩, .record 1 131]

/-- Then the record of the first opens the delivery again and loses an attempt, and it is sent once
more. -/
theorem late_record_reopens :
    (Machine.run deliveryStep (.start .push 0) late).row.status = .succeeded ∧
      (Machine.run deliveryStep (.start .push 0) (late ++ [.record 0 140])).row.status = .pending ∧
      (Machine.run deliveryStep (.start .push 0) (late ++ [.record 0 140])).row.attempts = 1 ∧
      (Machine.run deliveryStep (.start .push 0) (late ++ [.record 0 140])).recorded = 2 ∧
      (Machine.run deliveryStep (.start .push 0)
        (late ++ [.record 0 140, .claimDue 200, .send 0 ⟨"", false⟩])).sends = 3 := by
  decide +kernel

end GitSlice.Webhooks
