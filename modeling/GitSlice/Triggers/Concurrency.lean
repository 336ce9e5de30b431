import Mathlib.Data.Finset.Card
import GitSlice.Library.Machine

/-! # Concurrency limits of trigger runs
`internal/triggers/engine.go`: a drain posts a due worker run to the dispatcher when the account has
fewer than `MaxActivePerAccount` running and waiting runs, and for a serial trigger when no other
run of it is active or older. The run becomes running when a runner claims it with `StartRun`, at
any later time; http and check actions are claimed by the drain itself, which looks at no limit.

So the limits hold when each run that was posted has started before the next one is looked at, and
every action is a worker script (`limits_hold`), and not in general (`limits_exceeded`). -/

namespace GitSlice

open List

namespace TriggerRuns

/-! ## The code -/

/-- The runs an account may have at once. -/
def MaxActivePerAccount : Nat := 20

/-- The kinds of an action. -/
inductive Action
  | http
  | worker
  | check
deriving DecidableEq

/-- `storage.TriggerRun`: what does not change of a run. -/
structure Run where
  account : String
  trigger : String
  action : Action
  /-- Whether the run's trigger is serial. -/
  serial : Bool
  createdAt : Nat
  maxAttempts : Nat
deriving DecidableEq

/-- The statuses of a run. -/
inductive Status
  | queued
  | running
  | waiting
  | succeeded
  | failed
  | errored
  | canceled
  | timedOut
deriving DecidableEq

/-- Running or waiting. -/
def Status.isActive (s : Status) : Bool := s = .running || s = .waiting

/-- `TriggerRunFinal`. -/
def Status.isFinal (s : Status) : Bool := !s.isActive && s ≠ .queued

/-- The table of runs, by the order of their rows, and what servers and runners know: `looked` are
the runs that a server has found to be next of their trigger and is about to count for, `posted`
those that a runner was sent. -/
structure State where
  runs : List Run := []
  status : Nat → Status := fun _ => .queued
  attempt : Nat → Nat := fun _ => 0
  looked : List Nat := []
  posted : List Nat := []

namespace State

variable (st : State)

/-- The active runs that pass a test: the rows of `CountActiveTriggerRuns`. -/
def active (p : Run → Bool) : Finset Nat :=
  (Finset.range st.runs.length).filter fun i => st.runs[i]?.any p ∧ (st.status i).isActive

/-- A queued run starts its next attempt. -/
def claimTriggerRun (i : Nat) : State :=
  if st.status i = .queued then
    { st with
      status := Function.update st.status i .running
      attempt := Function.update st.attempt i (st.attempt i + 1) }
  else st

/-- `UpdateTriggerRun`, of a run in one of the statuses `source`. -/
def updateTriggerRun (i : Nat) (source : List Status) (status : Status) : State :=
  if st.status i ∈ source then { st with status := Function.update st.status i status } else st

/-- The look of `post` at the open runs of a serial trigger: no other one is active or older. -/
def inTurn (i : Nat) (run : Run) : Bool :=
  !run.serial || (List.range st.runs.length).all fun j => st.runs[j]?.all fun other =>
    j = i || other.account ≠ run.account || other.trigger ≠ run.trigger || (st.status j).isFinal ||
      (!(st.status j).isActive && run.createdAt ≤ other.createdAt)

end State

/-- What servers, runners and scripts do. -/
inductive Event
  /-- An event or a user makes a run. -/
  | create (run : Run)
  /-- A drain claims a due run for `launch` or `sendHTTP`. -/
  | claim (i : Nat)
  /-- A drain's `post` looks at the open runs of the trigger. -/
  | look (i : Nat)
  /-- It counts the account's active runs and sends the run to the dispatcher. -/
  | count (i : Nat)
  /-- A runner that was sent the run calls `StartRun`. -/
  | start (i : Nat)
  /-- A run waits for checks or callbacks. -/
  | wait (i : Nat)
  /-- A run ends: by its script or its checks, with an error, when it expires or is canceled. -/
  | finish (i : Nat) (status : Status)
  /-- A run that was interrupted, or an http action that failed, is queued again. -/
  | retry (i : Nat)

/-- One step. -/
def step (st : State) : Event → State
  | .create run => { st with runs := st.runs ++ [run] }
  | .claim i =>
    match st.runs[i]? with
    | some run => if run.action = .worker then st else st.claimTriggerRun i
    | none => st
  | .look i =>
    match st.runs[i]? with
    | some run => if run.action = .worker ∧ st.inTurn i run then { st with looked := i :: st.looked } else st
    | none => st
  | .count i =>
    match st.runs[i]? with
    | some run =>
      if i ∈ st.looked then
        if MaxActivePerAccount ≤ (st.active (·.account = run.account)).card then
          { st with looked := st.looked.erase i }
        else { st with looked := st.looked.erase i, posted := i :: st.posted }
      else st
    | none => st
  | .start i => if i ∈ st.posted then st.claimTriggerRun i else st
  | .wait i => st.updateTriggerRun i [.running, .waiting] .waiting
  | .finish i status => if status.isFinal then st.updateTriggerRun i [.queued, .running, .waiting] status else st
  | .retry i =>
    match st.runs[i]? with
    | some run => if st.attempt i < run.maxAttempts then st.updateTriggerRun i [.running] .queued else st
    | none => st

/-! ## The limits -/

/-- No other run of the account that was looked at or posted is still queued. -/
def AllStarted (st : State) (i : Nat) : Prop :=
  ∀ j ∈ st.looked ++ st.posted, j ≠ i →
    (st.runs[j]?.map Run.account) = st.runs[i]?.map Run.account →
    st.status j ≠ .queued

instance (st : State) (i : Nat) : Decidable (AllStarted st i) := List.decidableBAll _ _

/-- Runs are of worker scripts, and servers look at a run when the others of its account have
started. -/
def Careful (st : State) : Event → Prop
  | .create run => run.action = .worker
  | .look i => AllStarted st i
  | .count i => AllStarted st i
  | _ => True

instance (st : State) (e : Event) : Decidable (Careful st e) := by
  cases e <;> unfold Careful <;> infer_instance

/-- The runs that pass a test and are active, or queued and in the list. -/
def State.held (st : State) (l : List Nat) (p : Run → Bool) : Finset Nat :=
  (Finset.range st.runs.length).filter fun i =>
    st.runs[i]?.any p ∧ ((st.status i).isActive ∨ (st.status i = .queued ∧ i ∈ l))

/-- The run is of the account. -/
def ofAccount (account : String) (run : Run) : Bool := run.account = account

/-- The run is of the trigger. -/
def ofTrigger (account trigger : String) (run : Run) : Bool :=
  run.account = account && run.trigger = trigger

/-- The trigger is serial in all its runs. -/
def State.Serial (st : State) (account trigger : String) : Prop :=
  ∀ run ∈ st.runs, ofTrigger account trigger run = true → run.serial = true

/-- Active runs and those that a runner can start are within the limits. -/
structure Inv (st : State) : Prop where
  workers : ∀ run ∈ st.runs, run.action = .worker
  known : ∀ i ∈ st.looked ++ st.posted, i < st.runs.length
  started : ∀ i, (st.status i).isActive = true → i ∈ st.posted
  account : ∀ a, (st.held st.posted (ofAccount a)).card ≤ MaxActivePerAccount
  serial : ∀ a t, st.Serial a t → (st.held (st.looked ++ st.posted) (ofTrigger a t)).card ≤ 1

section Steps

variable {st : State} {l : List Nat} {p : Run → Bool} {i j : Nat}

theorem mem_held : i ∈ st.held l p ↔ (∃ run, st.runs[i]? = some run ∧ p run = true) ∧
    ((st.status i).isActive = true ∨ (st.status i = .queued ∧ i ∈ l)) := by
  rw [State.held, Finset.mem_filter]
  cases hrun : st.runs[i]? with
  | none => simp
  | some run => simp [(List.getElem?_eq_some_iff.mp hrun).1]

theorem card_held_le {l' : List Nat}
    (hl : ∀ k run, st.runs[k]? = some run → p run = true → k ∈ l → k ∈ l') :
    (st.held l p).card ≤ (st.held l' p).card := by
  refine Finset.card_le_card fun j hj => ?_
  obtain ⟨⟨run, hrun, hp⟩, hj⟩ := mem_held.mp hj
  exact mem_held.mpr ⟨⟨run, hrun, hp⟩, hj.imp_right (And.imp_right (hl j run hrun hp))⟩

theorem mem_active : i ∈ st.active p ↔ (∃ run, st.runs[i]? = some run ∧ p run = true) ∧
    (st.status i).isActive = true := by
  have hactive : st.active p = st.held [] p := by simp [State.active, State.held]
  rw [hactive, mem_held]
  simp

theorem active_subset_held : st.active p ⊆ st.held l p := by
  intro i hi
  obtain ⟨hlt, hp, hactive⟩ := Finset.mem_filter.mp hi
  exact Finset.mem_filter.mpr ⟨hlt, hp, .inl hactive⟩

theorem not_active_of_inTurn {run other : Run} {a t : String} (hturn : st.inTurn i run = true)
    (hserial : run.serial = true) (hrun : ofTrigger a t run = true)
    (hother : st.runs[j]? = some other)
    (hp : ofTrigger a t other = true) (hne : j ≠ i) : (st.status j).isActive = false := by
  simp only [State.inTurn, hserial, Bool.not_true, Bool.false_or, all_eq_true, mem_range] at hturn
  have hlt : j < st.runs.length := (List.getElem?_eq_some_iff.mp hother).1
  have hthis := hturn j hlt
  simp only [ofTrigger] at hrun hp
  cases hstatus : st.status j <;> simp_all [Status.isFinal, Status.isActive]

section

variable (h : Inv st)
include h

/-- A run changes its status: it can only become one that is active, or queued and posted, if it
was. -/
theorem Inv.setStatus {status : Status} {attempt : Nat → Nat}
    (hactive : status.isActive = true →
      i ∈ st.posted ∧ (st.status i = .queued ∨ (st.status i).isActive = true))
    (hqueued : status = .queued → (st.status i).isActive = true) :
    Inv { st with status := Function.update st.status i status, attempt := attempt } := by
  have hheld : ∀ l p, (∀ k ∈ st.posted, k ∈ l) →
      State.held { st with status := Function.update st.status i status, attempt := attempt } l p ⊆
        st.held l p := by
    intro l p hl j hj
    obtain ⟨hp, hj⟩ := mem_held.mp hj
    refine mem_held.mpr ⟨hp, ?_⟩
    by_cases hij : j = i
    · subst hij
      simp only [Function.update_self] at hj
      rcases hj with hj | ⟨hj, -⟩
      · obtain ⟨hposted, hold | hold⟩ := hactive hj
        · exact .inr ⟨hold, hl j hposted⟩
        · exact .inl hold
      · exact .inl (hqueued hj)
    · simpa only [Function.update_of_ne hij] using hj
  refine ⟨h.workers, h.known, ?_, fun a => ?_, fun a t hserial => ?_⟩
  · intro j hj
    by_cases hij : j = i
    · subst hij
      simp only [Function.update_self] at hj
      exact (hactive hj).1
    · simp only [Function.update_of_ne hij] at hj
      exact h.started j hj
  · exact (Finset.card_le_card (hheld st.posted _ fun k hk => hk)).trans (h.account a)
  · exact (Finset.card_le_card (hheld _ _ fun k hk => mem_append_right _ hk)).trans
      (h.serial a t hserial)

theorem Inv.create {run : Run} (hrun : run.action = .worker) :
    Inv { st with runs := st.runs ++ [run] } := by
  -- the new run is not active and no server has looked at it
  have hheld : ∀ l p, (∀ k ∈ l, k ∈ st.looked ++ st.posted) →
      State.held { st with runs := st.runs ++ [run] } l p ⊆ st.held l p := by
    intro l p hl j hj
    obtain ⟨⟨r, hr, hp⟩, hj⟩ := mem_held.mp hj
    have hlt : j < st.runs.length := by
      rcases hj with hj | ⟨-, hj⟩
      · exact h.known j (mem_append_right _ (h.started j hj))
      · exact h.known j (hl j hj)
    rw [List.getElem?_append_left hlt] at hr
    exact mem_held.mpr ⟨⟨r, hr, hp⟩, hj⟩
  refine ⟨?_, fun j hj => ?_, h.started, fun a => ?_, fun a t hserial => ?_⟩
  · exact forall_mem_append.mpr ⟨h.workers, by simpa⟩
  · rw [length_append]
    exact Nat.lt_add_right _ (h.known j hj)
  · exact (Finset.card_le_card (hheld _ _ fun k hk => mem_append_right _ hk)).trans (h.account a)
  · refine (Finset.card_le_card (hheld _ _ fun k hk => hk)).trans (h.serial a t ?_)
    exact fun r hr => hserial r (mem_append_left _ hr)

theorem Inv.look {run : Run} (hrun : st.runs[i]? = some run) (hturn : st.inTurn i run = true)
    (hall : AllStarted st i) : Inv { st with looked := i :: st.looked } := by
  refine ⟨h.workers, fun j hj => ?_, h.started, h.account, fun a t hserial => ?_⟩
  · rcases mem_cons.mp hj with rfl | hj
    · exact (List.getElem?_eq_some_iff.mp hrun).1
    · exact h.known j hj
  · by_cases hp : ofTrigger a t run = true
    · -- only the run itself can be held
      have hself : ∀ j ∈ State.held { st with looked := i :: st.looked } (i :: st.looked ++ st.posted) (ofTrigger a t),
          j = i := by
        intro j hj
        obtain ⟨⟨other, hother, hpo⟩, hj⟩ := mem_held.mp hj
        by_contra hne
        rcases hj with hj | ⟨hqueued, hj⟩
        · have := not_active_of_inTurn hturn (hserial run (mem_of_getElem? hrun) hp) hp hother hpo hne
          exact absurd hj (by simpa using this)
        · refine hall j ?_ hne ?_ hqueued
          · simpa [hne] using hj
          · simp only [ofTrigger, Bool.and_eq_true, decide_eq_true_eq] at hp hpo
            rw [hother, hrun, Option.map_some, Option.map_some, hp.1, hpo.1]
      exact Finset.card_le_one.mpr fun j hj k hk => (hself j hj).trans (hself k hk).symm
    · refine (card_held_le fun j other hother hpo hj => ?_).trans (h.serial a t hserial)
      rcases mem_cons.mp hj with rfl | hj
      · obtain rfl : run = other := Option.some.inj (hrun.symm.trans hother)
        exact absurd hpo hp
      · exact hj

theorem Inv.unlook (i : Nat) : Inv { st with looked := st.looked.erase i } := by
  have hsub : ∀ k ∈ st.looked.erase i ++ st.posted, k ∈ st.looked ++ st.posted :=
    fun _ hk => (erase_sublist.append_right _).subset hk
  refine ⟨h.workers, fun j hj => h.known j (hsub j hj), h.started, h.account, fun a t hserial => ?_⟩
  exact (card_held_le fun j _ _ _ => hsub j).trans (h.serial a t hserial)

theorem Inv.post {run : Run} (hrun : st.runs[i]? = some run) (hlooked : i ∈ st.looked)
    (hcount : (st.active (·.account = run.account)).card < MaxActivePerAccount)
    (hall : AllStarted st i) :
    Inv { st with posted := i :: st.posted } := by
  have hsub : ∀ k ∈ st.looked ++ i :: st.posted, k ∈ st.looked ++ st.posted := by
    intro k hk
    rcases mem_append.mp hk with hk | hk
    · exact mem_append_left _ hk
    · rcases mem_cons.mp hk with rfl | hk
      · exact mem_append_left _ hlooked
      · exact mem_append_right _ hk
  refine ⟨h.workers, fun j hj => h.known j (hsub j hj),
    fun j hj => mem_cons_of_mem _ (h.started j hj), fun a => ?_, fun a t hserial => ?_⟩
  · by_cases ha : run.account = a
    · -- the posted run comes on top of the counted ones, and there is no other to start
      have hheld : State.held { st with posted := i :: st.posted } (i :: st.posted) (ofAccount a) ⊆
          insert i (st.active (·.account = run.account)) := by
        intro j hj
        obtain ⟨⟨other, hother, hpo⟩, hj⟩ := mem_held.mp hj
        have hsame : other.account = run.account := (of_decide_eq_true hpo).trans ha.symm
        by_cases hij : j = i
        · exact Finset.mem_insert.mpr (.inl hij)
        · refine Finset.mem_insert_of_mem ?_
          rcases hj with hj | ⟨hqueued, hj⟩
          · exact mem_active.mpr ⟨⟨other, hother, decide_eq_true hsame⟩, hj⟩
          · refine absurd hqueued (hall j (hsub j (mem_append_right _ hj)) hij ?_)
            rw [show st.runs[j]? = some other from hother, hrun, Option.map_some,
              Option.map_some, hsame]
      exact (Finset.card_le_card hheld).trans ((Finset.card_insert_le _ _).trans hcount)
    · refine (card_held_le fun j other hother hpo hj => ?_).trans (h.account a)
      rcases mem_cons.mp hj with rfl | hj
      · obtain rfl : run = other := Option.some.inj (hrun.symm.trans hother)
        exact absurd (of_decide_eq_true hpo) ha
      · exact hj
  · exact (card_held_le fun j _ _ _ => hsub j).trans (h.serial a t hserial)

theorem Inv.step {e : Event} (hcareful : Careful st e) : Inv (step st e) := by
  cases e with
  | create => exact h.create hcareful
  | claim i =>
    rw [TriggerRuns.step]
    cases hrun : st.runs[i]? with
    | none => exact h
    | some run => simpa only [if_pos (h.workers run (mem_of_getElem? hrun))] using h
  | look i =>
    rw [TriggerRuns.step]
    cases hrun : st.runs[i]? with
    | none => exact h
    | some run =>
      simp only
      split_ifs with hlook
      · exact h.look hrun hlook.2 hcareful
      · exact h
  | count i =>
    rw [TriggerRuns.step]
    cases hrun : st.runs[i]? with
    | none => exact h
    | some run =>
      simp only
      split_ifs with hlooked hfull
      · exact h.unlook i
      · exact (h.post hrun hlooked (not_le.mp hfull) hcareful).unlook i
      · exact h
  | start =>
    rw [TriggerRuns.step, State.claimTriggerRun]
    split_ifs with hposted hqueued
    · exact h.setStatus (fun _ => ⟨hposted, .inl hqueued⟩) nofun
    · exact h
    · exact h
  | wait i =>
    rw [TriggerRuns.step, State.updateTriggerRun]
    split_ifs with hfrom
    · have hactive : (st.status i).isActive = true := by
        simp only [mem_cons, not_mem_nil, or_false] at hfrom
        rcases hfrom with hs | hs <;> rw [hs] <;> rfl
      exact h.setStatus (fun _ => ⟨h.started i hactive, .inr hactive⟩) nofun
    · exact h
  | finish =>
    rw [TriggerRuns.step, State.updateTriggerRun]
    split_ifs with hfinal hfrom
    · refine h.setStatus (fun hactive => ?_) fun hqueued => ?_
      · simp [Status.isFinal, hactive] at hfinal
      · simp [Status.isFinal, hqueued] at hfinal
    · exact h
    · exact h
  | retry i =>
    rw [TriggerRuns.step]
    cases st.runs[i]? with
    | none => exact h
    | some run =>
      simp only [State.updateTriggerRun, mem_singleton]
      split_ifs with hattempt hrunning
      · exact h.setStatus nofun fun _ => by rw [hrunning]; rfl
      · exact h
      · exact h

end

end Steps

/-- **The limits hold** in every run in which all actions are worker scripts and a server looks at a
run when every other run of its account that was posted has started: an account has at most
`MaxActivePerAccount` active runs, and a serial trigger at most one. -/
theorem limits_hold (events : List Event) (hcareful : Machine.Meets step Careful {} events)
    (account : String) :
    ((Machine.run step {} events).active (ofAccount account)).card ≤ MaxActivePerAccount ∧
    ∀ trigger, (Machine.run step {} events).Serial account trigger →
      ((Machine.run step {} events).active (ofTrigger account trigger)).card ≤ 1 := by
  have hinv : Inv (Machine.run step {} events) := by
    refine Machine.run_induction Inv (fun st e h hcond => h.step hcond) ?_ hcareful
    exact ⟨nofun, nofun, nofun, fun _ => Nat.zero_le _, fun _ _ _ => Nat.zero_le _⟩
  exact ⟨(Finset.card_le_card active_subset_held).trans (hinv.account account),
    fun trigger hserial =>
    (Finset.card_le_card active_subset_held).trans (hinv.serial account trigger hserial)⟩

/-- A run of the account. -/
def aRun (action : Action) (serial : Bool) : Run := ⟨"acme", "app:notify", action, serial, 0, 2⟩

/-- A run is posted and starts, is interrupted and starts again, and the next one waits for its
end. -/
def inOrder : List Event :=
  [.create (aRun .worker true), .create (aRun .worker true), .look 0, .count 0, .start 0, .look 1,
    .retry 0, .start 0, .finish 0 .succeeded, .look 1, .count 1, .start 1]

theorem limits_hold_inOrder : (Machine.run step {} inOrder).status 1 = .running ∧
    ((Machine.run step {} inOrder).active (ofTrigger "acme" "app:notify")).card ≤ 1 :=
  ⟨by decide +kernel, (limits_hold inOrder (by decide +kernel) "acme").2 "app:notify" (by
    unfold State.Serial
    decide +kernel)⟩

/-- Runs that are posted in one drain, before any of them starts. -/
def posts (n : Nat) (run : Run) : List Event :=
  List.replicate n (.create run) ++ (List.range n).flatMap (fun i => [.look i, .count i]) ++
    (List.range n).map .start

/-- More runs than the account may have, two active runs of a serial trigger that were created at
one time, and two of a serial trigger that runs checks. -/
theorem limits_exceeded :
    ((Machine.run step {} (posts 21 (aRun .worker false))).active (ofAccount "acme")).card = 21 ∧
    ((Machine.run step {} (posts 2 (aRun .worker true))).active (ofTrigger "acme" "app:notify")).card = 2 ∧
    ((Machine.run step {} [.create (aRun .check true), .create (aRun .check true), .claim 0, .claim 1]).active
      (ofTrigger "acme" "app:notify")).card = 2 := by
  decide +kernel

end TriggerRuns

end GitSlice
