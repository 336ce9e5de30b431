import GitSlice.Diff.Match
import Mathlib.Data.Set.Finite.Lemmas

/-! # Hunks
`lineHunks` and `applyHunks` of `internal/diffutil/merge3.go`: the changes of one file to another as
replaced ranges of lines, and a range of the file with some of them made. The slices of the source
are checked: `slice` has no value where the program would stop.

`lineHunks_spec` says what the hunks of a file are: ranges in order with kept lines between them
(`Placed`), which make the file of its base (`patched`), and of which no run leaves what it replaces
as it was (`Tight`): the lines kept between them are as many as there can be, or there is one hunk
only. -/

namespace GitSlice

open List

variable {α : Type}

/-! ## The code -/

/-- `l[start:stop]`, if the bounds hold. -/
def slice (l : List α) (start stop : Nat) : Option (List α) :=
  if start ≤ stop ∧ stop ≤ l.length then some ((l.drop start).take (stop - start)) else none

/-- `lineHunk`: replaces `base[start:stop]` with the lines. -/
structure LineHunk (α : Type) where
  start : Nat
  stop : Nat
  lines : List α
  deriving DecidableEq

/-- The hunk of `lineHunks` before line `j` of the file, which is line `target` of the base, if
there is a change. -/
def hunkBefore (other : List α) (baseNext target otherNext j : Nat) : Option (List (LineHunk α)) :=
  if baseNext < target ∨ otherNext < j then
    (slice other otherNext j).map fun lines => [⟨baseNext, target, lines⟩]
  else some []

/-- The loop of `lineHunks`. -/
def hunksFrom (base other : List α) :
    List (Option Nat) → Nat → Nat → Nat → Option (List (LineHunk α))
  | [], j, baseNext, otherNext => hunkBefore other baseNext base.length otherNext j
  | none :: ms, j, baseNext, otherNext => hunksFrom base other ms (j + 1) baseNext otherNext
  | some target :: ms, j, baseNext, otherNext => do
    let hunk ← hunkBefore other baseNext target otherNext j
    let hunks ← hunksFrom base other ms (j + 1) (target + 1) (j + 1)
    return hunk ++ hunks

/-- The changes that make `other` of the base. -/
def lineHunks [DecidableEq α] (base other : List α) : Option (List (LineHunk α)) :=
  hunksFrom base other (matchLines base other) 0 0 0

/-- The lines `[start, stop)` of the base with the hunks made. -/
def applyHunks (base : List α) (start stop : Nat) (hunks : List (LineHunk α)) : Option (List α) :=
  match hunks with
  | [] => slice base start stop
  | h :: hs => do
    let before ← slice base start h.start
    let after ← applyHunks base h.stop stop hs
    return before ++ h.lines ++ after

/-! ## Ranges of lines -/

/-- The lines from `start` to `stop`. -/
def span (l : List α) (start stop : Nat) : List α := (l.drop start).take (stop - start)

variable {l : List α}

theorem slice_eq {start stop : Nat} (h : start ≤ stop) (hstop : stop ≤ l.length) :
    slice l start stop = some (span l start stop) :=
  if_pos ⟨h, hstop⟩

@[simp] theorem span_all (l : List α) : span l 0 l.length = l := by simp [span]

@[simp] theorem span_self (l : List α) (n : Nat) : span l n n = [] := by simp [span]

theorem length_span {start stop : Nat} (hstop : stop ≤ l.length) :
    (span l start stop).length = stop - start := by
  unfold span
  rw [length_take, length_drop]
  omega

theorem span_append_span (l : List α) {start middle stop : Nat} (h : start ≤ middle)
    (h' : middle ≤ stop) :
    span l start middle ++ span l middle stop = span l start stop := by
  unfold span
  rw [show stop - start = (middle - start) + (stop - middle) by omega, take_add, drop_drop,
    Nat.add_sub_cancel' h]

theorem span_append (front l back : List α) :
    span (front ++ (l ++ back)) front.length (front.length + l.length) = l := by
  unfold span
  rw [drop_left, Nat.add_sub_cancel_left, take_left]

/-! ## Hunks in order -/

/-- The range from `start` to `stop` with the hunks made. -/
def patched (base : List α) (start stop : Nat) : List (LineHunk α) → List α
  | [] => span base start stop
  | h :: hs => span base start h.start ++ h.lines ++ patched base h.stop stop hs

/-- The hunk without its lines. -/
def LineHunk.cleared (h : LineHunk α) : LineHunk α := { h with lines := [] }

/-- The lines of a range that its hunks keep. -/
def unchanged (base : List α) (start stop : Nat) (hs : List (LineHunk α)) : List α :=
  patched base start stop (hs.map LineHunk.cleared)

/-- Hunks after `pos`, in order and with a kept line between two of them, each of which replaces or
inserts a line. -/
structure Placed (base : List α) (pos : Nat) (hs : List (LineHunk α)) : Prop where
  apart : hs.Pairwise fun h h' => h.stop < h'.start
  bounds : ∀ h ∈ hs, pos ≤ h.start ∧ h.start ≤ h.stop ∧ h.stop ≤ base.length
  changes : ∀ h ∈ hs, h.start < h.stop ∨ h.lines ≠ []

namespace Placed

variable {base : List α} {pos : Nat} {h : LineHunk α} {hs : List (LineHunk α)}

theorem nil (base : List α) (pos : Nat) : Placed base pos [] := ⟨.nil, nofun, nofun⟩

variable {hs : List (LineHunk α)}

theorem of_le (hp : Placed base pos hs) {pos' : Nat} (h : ∀ h ∈ hs, pos' ≤ h.start) :
    Placed base pos' hs :=
  ⟨hp.apart, fun hunk hh => ⟨h hunk hh, (hp.bounds hunk hh).2⟩, hp.changes⟩

theorem mono (hp : Placed base pos hs) {pos' : Nat} (hpos : pos' ≤ pos) : Placed base pos' hs :=
  hp.of_le fun h hh => hpos.trans (hp.bounds h hh).1

theorem sublist (hp : Placed base pos hs) {hs' : List (LineHunk α)} (hsub : hs'.Sublist hs) :
    Placed base pos hs' :=
  ⟨hp.apart.sublist hsub, fun h hh => hp.bounds h (hsub.subset hh),
    fun h hh => hp.changes h (hsub.subset hh)⟩

theorem tail (hp : Placed base pos (h :: hs)) : Placed base (h.stop + 1) hs :=
  (hp.sublist (sublist_cons_self h hs)).of_le (pairwise_cons.mp hp.apart).1

theorem cons (hp : Placed base (h.stop + 1) hs)
    (hbounds : pos ≤ h.start ∧ h.start ≤ h.stop ∧ h.stop ≤ base.length)
    (hchanges : h.start < h.stop ∨ h.lines ≠ []) : Placed base pos (h :: hs) := by
  refine ⟨pairwise_cons.mpr ⟨?_, hp.apart⟩, ?_, ?_⟩
  · intro h' hh'
    have := hp.bounds h' hh'
    omega
  · intro h' hh'
    rcases mem_cons.mp hh' with rfl | hh'
    · exact hbounds
    · have := hp.bounds h' hh'
      omega
  · exact forall_mem_cons.mpr ⟨hchanges, hp.changes⟩

end Placed

section Patched

variable {base : List α} {start middle stop : Nat} {hs hs' : List (LineHunk α)}

theorem Placed.first_le {h h' : LineHunk α} (hp : Placed base start (h :: hs))
    (hh' : h' ∈ h :: hs) :
    h.start ≤ h'.start := by
  rcases mem_cons.mp hh' with rfl | hh'
  · exact le_refl _
  · have := (hp.bounds h mem_cons_self).2.1
    have := (hp.tail.bounds h' hh').1
    omega

/-- **Hunks in order can be applied**: no slice is out of bounds. -/
theorem applyHunks_eq (hp : Placed base start hs) (hend : ∀ h ∈ hs, h.stop ≤ stop)
    (h : start ≤ stop) (hstop : stop ≤ base.length) :
    applyHunks base start stop hs = some (patched base start stop hs) := by
  induction hs generalizing start with
  | nil => exact slice_eq h hstop
  | cons hunk hs ih =>
    have hbounds := hp.bounds hunk mem_cons_self
    have hrest := ih (hp.tail.mono (Nat.le_succ _)) (fun h hh => hend h (mem_cons_of_mem _ hh))
      (hend hunk mem_cons_self)
    rw [applyHunks, slice_eq hbounds.1 (by omega), hrest]
    rfl

theorem patched_append (base : List α) (h : start ≤ middle) (h' : middle ≤ stop)
    (hs₁ : ∀ h ∈ hs, h.stop ≤ middle) (hs₂ : ∀ h ∈ hs', middle ≤ h.start) :
    patched base start stop (hs ++ hs') =
      patched base start middle hs ++ patched base middle stop hs' := by
  induction hs generalizing start with
  | nil =>
    cases hs' with
    | nil => exact (span_append_span base h h').symm
    | cons hunk hs' =>
      have hmiddle := hs₂ hunk mem_cons_self
      simp only [nil_append, patched]
      rw [← span_append_span base h hmiddle]
      simp only [append_assoc]
  | cons hunk hs ih =>
    have hrest := ih (hs₁ hunk mem_cons_self) fun h hh => hs₁ h (mem_cons_of_mem _ hh)
    simp only [cons_append, patched, hrest, append_assoc]

theorem patched_skip (base : List α) (h : start ≤ middle) (h' : middle ≤ stop)
    (hs' : ∀ h ∈ hs, middle ≤ h.start) :
    patched base start stop hs = span base start middle ++ patched base middle stop hs :=
  patched_append base h h' (forall_mem_nil _) hs'

theorem unchanged_append (base : List α) (h : start ≤ middle) (h' : middle ≤ stop)
    (hs₁ : ∀ h ∈ hs, h.stop ≤ middle) (hs₂ : ∀ h ∈ hs', middle ≤ h.start) :
    unchanged base start stop (hs ++ hs') =
      unchanged base start middle hs ++ unchanged base middle stop hs' := by
  unfold unchanged
  rw [map_append]
  refine patched_append base h h' ?_ ?_
  · simpa [LineHunk.cleared] using hs₁
  · simpa [LineHunk.cleared] using hs₂

theorem unchanged_sublist_patched (hs : List (LineHunk α)) (start : Nat) :
    (unchanged base start stop hs).Sublist (patched base start stop hs) := by
  induction hs generalizing start with
  | nil => exact List.Sublist.refl _
  | cons hunk hs ih =>
    refine (List.Sublist.append ?_ (ih hunk.stop))
    rw [show hunk.cleared.lines = [] from rfl, append_nil]
    exact sublist_append_left _ _

theorem length_patched (base : List α) (hs : List (LineHunk α)) (start stop : Nat) :
    (patched base start stop hs).length =
      (unchanged base start stop hs).length + (hs.map fun h => h.lines.length).sum := by
  induction hs generalizing start with
  | nil => rfl
  | cons hunk hs ih =>
    have := ih hunk.stop
    simp only [unchanged, patched, map_cons, length_append, sum_cons, LineHunk.cleared,
      length_nil] at this ⊢
    omega

theorem unchanged_span (hp : Placed base start hs) (hend : ∀ h ∈ hs, h.stop ≤ stop)
    (h : start ≤ stop) (hstop : stop ≤ base.length) :
    (unchanged base start stop hs).Sublist (span base start stop) ∧
      (span base start stop).length =
        (unchanged base start stop hs).length + (hs.map fun h => h.stop - h.start).sum := by
  induction hs generalizing start with
  | nil => exact ⟨List.Sublist.refl _, rfl⟩
  | cons hunk hs ih =>
    have hbounds := hp.bounds hunk mem_cons_self
    have hhunk := hend hunk mem_cons_self
    obtain ⟨hsub, hlen⟩ := ih (hp.tail.mono (Nat.le_succ _)) (fun h hh => hend h (mem_cons_of_mem _ hh))
      hhunk
    have hcons : unchanged base start stop (hunk :: hs) =
        span base start hunk.start ++ unchanged base hunk.stop stop hs := by
      simp [unchanged, patched, LineHunk.cleared]
    rw [hcons]
    refine ⟨?_, ?_⟩
    · rw [← span_append_span base hbounds.1 (hbounds.2.1.trans hhunk),
        ← span_append_span base hbounds.2.1 hhunk]
      exact (List.Sublist.refl _).append (hsub.trans (sublist_append_right _ _))
    · rw [length_append, map_cons, sum_cons]
      rw [length_span hstop] at hlen ⊢
      rw [length_span (by omega)]
      omega

end Patched

variable {base other : List α} {start stop : Nat}
/-! ## The hunks of a file -/

theorem hunkBefore_spec {front' added rest : List α} (base front d : List α)
    (hother : other = front' ++ (added ++ rest)) (hbase : (front ++ d).length ≤ base.length) :
    ∃ hs, hunkBefore other front.length (front.length + d.length) front'.length
        (front'.length + added.length) = some hs ∧
      ∀ {hs'}, Placed base (front.length + d.length + 1) hs' →
        Placed base front.length (hs ++ hs') ∧
        ∀ stop, front.length + d.length ≤ stop →
          patched base front.length stop (hs ++ hs') =
              added ++ patched base (front.length + d.length) stop hs' ∧
            unchanged base front.length stop (hs ++ hs') =
              unchanged base (front.length + d.length) stop hs' := by
  rw [length_append] at hbase
  unfold hunkBefore
  split_ifs with hchange
  · have hslice : slice other front'.length (front'.length + added.length) = some added := by
      rw [hother, slice_eq (Nat.le_add_right _ _) (by simp), span_append]
    refine ⟨[⟨front.length, front.length + d.length, added⟩], by rw [hslice]; rfl, ?_⟩
    intro hs' hp
    refine ⟨Placed.cons hp ⟨le_refl _, Nat.le_add_right _ _, hbase⟩ ?_, ?_⟩
    · rcases hchange with hd | hadded
      · exact .inl hd
      · refine .inr ?_
        rintro rfl
        simp at hadded
    · intro stop _
      simp [patched, unchanged, LineHunk.cleared]
  · have hd : d = [] := length_eq_zero_iff.mp (by omega)
    have hadded : added = [] := length_eq_zero_iff.mp (by omega)
    subst hd hadded
    exact ⟨[], rfl, fun hp => ⟨hp.mono (Nat.le_succ _), fun _ _ => ⟨rfl, rfl⟩⟩⟩

/-- **The loop of `lineHunks`** makes the rest of the file of the rest of the base, and keeps the
matched lines. -/
theorem hunksFrom_spec {a b : List α} {ms : List (Option Nat)} (front front' added : List α)
    (h : Aligned front.length a b ms) (hbase : base = front ++ a)
    (hother : other = front' ++ (added ++ b)) :
    ∃ hs, hunksFrom base other ms (front'.length + added.length) front.length front'.length = some hs ∧
      Placed base front.length hs ∧ patched base front.length base.length hs = added ++ b ∧
      (unchanged base front.length base.length hs).length = keptCount ms := by
  generalize hpos : front.length = pos at h
  induction h generalizing front front' added with
  | done pos a =>
    subst hpos
    obtain ⟨hs, hrun, hspec⟩ := hunkBefore_spec base front a hother (by rw [hbase])
    have hlen : base.length = front.length + a.length := by rw [hbase, length_append]
    obtain ⟨hplaced, happlied⟩ := hspec (Placed.nil base _)
    obtain ⟨hpatched, hkept⟩ := happlied base.length (le_of_eq hlen.symm)
    rw [append_nil] at hplaced hpatched hkept
    refine ⟨hs, ?_, hplaced, ?_, ?_⟩
    · rw [hunksFrom, hlen]
      exact hrun
    · rw [hpatched, ← hlen]
      simp [patched]
    · rw [hkept, ← hlen]
      simp [unchanged, patched]
  | @added pos a b ms l h ih =>
    obtain ⟨hs, hrun, hplaced, hpatched, hkept⟩ := ih front front' (added ++ [l]) hbase
      (by rw [hother]; simp) hpos
    refine ⟨hs, ?_, hplaced, ?_, ?_⟩
    · rw [hunksFrom, ← hrun, length_append, length_singleton, Nat.add_assoc]
    · rw [hpatched]
      simp
    · rw [hkept, keptCount_none]
  | @kept pos a b ms d l h ih =>
    subst hpos
    have hlen : base.length = front.length + d.length + 1 + a.length := by
      rw [hbase]
      simp
      omega
    obtain ⟨hs, hrun, hspec⟩ := hunkBefore_spec base front d hother
      (by rw [length_append]; omega)
    obtain ⟨hs', hrun', hplaced', hpatched', hkept'⟩ := ih (front ++ d ++ [l])
      (front' ++ added ++ [l]) [] (by rw [hbase]; simp) (by rw [hother]; simp)
      (by simp only [length_append, length_singleton])
    have hfront' : (front' ++ added ++ [l]).length = front'.length + added.length + 1 := by
      simp only [length_append, length_singleton]
    rw [hfront', length_nil] at hrun'
    obtain ⟨hplaced, happlied⟩ := hspec hplaced'
    obtain ⟨hpatched, hkept⟩ := happlied base.length (by omega)
    have hspan : span base (front.length + d.length) (front.length + d.length + 1) = [l] := by
      rw [hbase, ← append_assoc, ← length_append]
      exact span_append (front ++ d) [l] a
    have hstep : ∀ {hs}, (∀ h ∈ hs, front.length + d.length + 1 ≤ h.start) →
        patched base (front.length + d.length) base.length hs =
          l :: patched base (front.length + d.length + 1) base.length hs := by
      intro hs hs'
      rw [patched_skip base (Nat.le_succ _) (by omega) hs', hspan]
      rfl
    refine ⟨hs ++ hs', ?_, hplaced, ?_, ?_⟩
    · rw [hunksFrom, hrun, hrun']
      rfl
    · rw [hpatched, hstep (fun h hh => (hplaced'.bounds h hh).1), hpatched']
      rfl
    · rw [hkept, keptCount_some, ← hkept']
      unfold unchanged
      rw [hstep, length_cons]
      intro h hh
      obtain ⟨h', hh', rfl⟩ := mem_map.mp hh
      exact (hplaced'.bounds h' hh').1

/-! ### When the matching gave up -/

theorem hunkBefore_none (other : List α) (pos j : Nat) : hunkBefore other pos pos j j = some [] :=
  if_neg (by omega)

theorem hunksFrom_keptRun (base other : List α) (ms : List (Option Nat)) (n pos j : Nat) :
    hunksFrom base other (keptRun pos n ++ ms) j pos j =
      hunksFrom base other ms (j + n) (pos + n) (j + n) := by
  induction n generalizing pos j with
  | zero => rfl
  | succ n ih =>
    rw [keptRun_succ, cons_append, hunksFrom, hunkBefore_none, ih, Nat.add_right_comm j,
      Nat.add_assoc j, Nat.add_right_comm pos, Nat.add_assoc pos]
    cases hunksFrom base other ms (j + (n + 1)) (pos + (n + 1)) (j + (n + 1)) <;> rfl

theorem hunksFrom_replicate (base other : List α) (ms : List (Option Nat))
    (n j pos otherNext : Nat) :
    hunksFrom base other (List.replicate n none ++ ms) j pos otherNext =
      hunksFrom base other ms (j + n) pos otherNext := by
  induction n generalizing j with
  | zero => rfl
  | succ n ih =>
    rw [replicate_succ, cons_append, hunksFrom, ih, Nat.add_right_comm j, Nat.add_assoc j]

theorem hunksFrom_between {front a b back : List α} (hbase : base = front ++ (a ++ back))
    (hother : other = front ++ (b ++ back)) (hne : a ≠ b) :
    hunksFrom base other (keptRun 0 front.length ++
        (List.replicate b.length none ++ keptRun (front.length + a.length) back.length)) 0 0 0 =
      some [⟨front.length, front.length + a.length, b⟩] := by
  have hchange : front.length < front.length + a.length ∨
      front.length < front.length + b.length := by
    by_contra hnone
    have ha : a = [] := length_eq_zero_iff.mp (by omega)
    have hb : b = [] := length_eq_zero_iff.mp (by omega)
    exact hne (ha.trans hb.symm)
  have hhunk : hunkBefore other front.length (front.length + a.length) front.length
      (front.length + b.length) = some [⟨front.length, front.length + a.length, b⟩] := by
    rw [hunkBefore, if_pos hchange, hother, slice_eq (Nat.le_add_right _ _) (by simp), span_append]
    rfl
  rw [hunksFrom_keptRun, hunksFrom_replicate, Nat.zero_add]
  cases back with
  | nil =>
    have hlen : base.length = front.length + a.length := by simp [hbase]
    show hunkBefore other front.length base.length front.length _ = _
    rw [hlen]
    exact hhunk
  | cons l back =>
    have hlen : base.length = front.length + a.length + 1 + back.length := by
      simp [hbase]
      omega
    have hrest := hunksFrom_keptRun base other [] back.length (front.length + a.length + 1)
      (front.length + b.length + 1)
    rw [append_nil, hunksFrom, ← hlen, hunkBefore_none] at hrest
    rw [length_cons, keptRun_succ, hunksFrom, hhunk, hrest]
    rfl

/-! ### Runs of hunks -/

/-- No run of hunks leaves what is there as it was. -/
def Tight (base : List α) (hs : List (LineHunk α)) : Prop :=
  ∀ ⦃before run after start stop⦄, hs = before ++ (run ++ after) → run ≠ [] → stop ≤ base.length →
    (∀ h ∈ run, start ≤ h.start ∧ h.stop ≤ stop) →
      patched base start stop run ≠ span base start stop

theorem Tight.of_append {hs' : List (LineHunk α)} (h : Tight base (hs ++ hs')) :
    Tight base hs' := by
  intro before run after start stop heq
  have hall : hs ++ hs' = (hs ++ before) ++ (run ++ after) := by rw [heq, append_assoc]
  exact h hall

variable {run : List (LineHunk α)}

theorem patched_narrow {start' stop' : Nat} (hstart : start ≤ start') (h : start' ≤ stop')
    (hstop : stop' ≤ stop) (hrun : ∀ h ∈ run, start' ≤ h.start ∧ h.stop ≤ stop')
    (hsame : patched base start stop run = span base start stop) :
    patched base start' stop' run = span base start' stop' := by
  have hback := patched_append base h hstop (fun h hh => (hrun h hh).2) (forall_mem_nil _)
  rw [append_nil] at hback
  rw [patched_skip base hstart (h.trans hstop) fun h hh => (hrun h hh).1, hback,
    ← span_append_span base hstart (h.trans hstop), ← span_append_span base h hstop] at hsame
  exact append_cancel_right (append_cancel_left hsame)

theorem Tight.of_hulls (hp : Placed base 0 hs)
    (hulls : ∀ {before run after start stop}, hs = before ++ (run ++ after) → run ≠ [] →
      start ≤ stop → stop ≤ base.length → (∀ h ∈ run, start ≤ h.start ∧ h.stop ≤ stop) →
      (∀ h ∈ before, h.stop ≤ start) → (∀ h ∈ after, stop ≤ h.start) →
      patched base start stop run ≠ span base start stop) : Tight base hs := by
  intro before run after start stop heq hne hstop hrun hsame
  obtain ⟨h₁, hh₁, hmin⟩ := Set.exists_min_image {h | h ∈ run} LineHunk.start run.finite_toSet
    (exists_mem_of_ne_nil run hne)
  obtain ⟨h₂, hh₂, hmax⟩ := Set.exists_max_image {h | h ∈ run} LineHunk.stop run.finite_toSet
    (exists_mem_of_ne_nil run hne)
  have hapart := hp.apart
  rw [heq, pairwise_append, pairwise_append] at hapart
  obtain ⟨-, ⟨-, -, hafter⟩, hbefore⟩ := hapart
  have hbounds := hp.bounds h₁ (heq ▸ mem_append_right _ (mem_append_left _ hh₁))
  have hle : h₁.start ≤ h₂.stop := hbounds.2.1.trans (hmax h₁ hh₁)
  have hall : ∀ h ∈ run, h₁.start ≤ h.start ∧ h.stop ≤ h₂.stop := fun h hh => ⟨hmin h hh, hmax h hh⟩
  refine hulls heq hne hle ((hrun h₂ hh₂).2.trans hstop) hall ?_ ?_
    (patched_narrow (hrun h₁ hh₁).1 hle (hrun h₂ hh₂).2 hall hsame)
  · exact fun h hh => (hbefore h hh h₁ (mem_append_left _ hh₁)).le
  · exact fun h hh => (hafter h₂ hh₂ h hh).le

theorem Tight.of_longest (hp : Placed base 0 hs)
    (hother : patched base 0 base.length hs = other)
    (hlongest : ∀ l : List α, l.Sublist base → l.Sublist other →
      l.length ≤ (unchanged base 0 base.length hs).length) : Tight base hs := by
  refine Tight.of_hulls hp ?_
  intro before run after start stop heq hne hle hstop hrun hbefore hafter hsame
  subst heq
  have hrunBefore : ∀ h ∈ run ++ after, start ≤ h.start :=
    forall_mem_append.mpr ⟨fun h hh => (hrun h hh).1, fun h hh => hle.trans (hafter h hh)⟩
  have hrunPlaced := (hp.sublist (sublist_append_of_sublist_right (sublist_append_left run after))).of_le
    fun h hh => (hrun h hh).1
  have hcut := patched_append base (Nat.zero_le start) (hle.trans hstop) hbefore hrunBefore
  rw [patched_append base hle hstop (fun h hh => (hrun h hh).2) hafter, hsame] at hcut
  have hkept := unchanged_append base (Nat.zero_le start) (hle.trans hstop) hbefore hrunBefore
  rw [unchanged_append base hle hstop (fun h hh => (hrun h hh).2) hafter] at hkept
  -- the range as it was, between what is kept around it, is a common sublist
  have hfront := (unchanged_span (hp.sublist (sublist_append_left before _)) hbefore (Nat.zero_le start)
    (hle.trans hstop)).1
  have hafterPlaced := (hp.sublist (sublist_append_of_sublist_right (sublist_append_right run after))).of_le hafter
  have hback := (unchanged_span hafterPlaced (fun h hh => (hafterPlaced.bounds h hh).2.2) hstop (le_refl _)).1
  have hbase : base = span base 0 start ++
      (span base start stop ++ span base stop base.length) := by
    rw [span_append_span base hle hstop, span_append_span base (Nat.zero_le _) (hle.trans hstop), span_all]
  have hlength := hlongest
    (unchanged base 0 start before ++
      (span base start stop ++ unchanged base stop base.length after))
    (by
      conv_rhs => rw [hbase]
      exact hfront.append ((List.Sublist.refl _).append hback))
    (by
      rw [← hother, hcut]
      exact (unchanged_sublist_patched _ _).append
        ((List.Sublist.refl _).append (unchanged_sublist_patched _ _)))
  rw [hkept] at hlength
  simp only [length_append] at hlength
  have hreplaced := (unchanged_span hrunPlaced (fun h hh => (hrun h hh).2) hle hstop).2
  have hinserted := length_patched base run start stop
  rw [hsame] at hinserted
  -- so the first hunk of the run neither replaces nor inserts anything
  obtain ⟨hunk, run, rfl⟩ := exists_cons_of_ne_nil hne
  rw [map_cons, sum_cons] at hreplaced hinserted
  rcases hrunPlaced.changes hunk mem_cons_self with hchange | hchange
  · omega
  · have := length_pos_iff.mpr hchange
    omega

theorem Tight.singleton {hunk : LineHunk α} (hp : Placed base 0 [hunk])
    (hne : hunk.lines ≠ span base hunk.start hunk.stop) : Tight base [hunk] := by
  intro before run after start stop heq hrun hstop hall hsame
  obtain rfl : run = [hunk] := by
    refine (sublist_singleton.mp ?_).resolve_left hrun
    rw [heq]
    exact sublist_append_of_sublist_right (sublist_append_left run after)
  have hrange := hall hunk mem_cons_self
  have hself := patched_narrow hrange.1 (hp.bounds hunk mem_cons_self).2.1 hrange.2 (by simp) hsame
  simp only [patched, span_self, append_nil] at hself
  exact hne hself

/-- **The hunks of a file**: in order, with the file as the result, and none in vain. -/
theorem lineHunks_spec [DecidableEq α] (base other : List α) :
    ∃ hs, lineHunks base other = some hs ∧ Placed base 0 hs ∧
      patched base 0 base.length hs = other ∧
      Tight base hs := by
  obtain ⟨haligned, hlongest⟩ := matchLines_spec base other
  obtain ⟨hs, hrun, hplaced, hpatched, hkept⟩ := hunksFrom_spec [] [] [] haligned rfl rfl
  refine ⟨hs, hrun, hplaced, hpatched, ?_⟩
  rcases hlongest with hlongest | ⟨front, a, b, back, hbase, hother, hne, hblocks⟩
  · rw [← hkept] at hlongest
    exact Tight.of_longest hplaced hpatched hlongest
  · have hbetween := hunksFrom_between hbase hother hne
    rw [← hblocks] at hbetween
    obtain rfl : hs = [⟨front.length, front.length + a.length, b⟩] :=
      Option.some.inj (hrun.symm.trans hbetween)
    refine Tight.singleton hplaced ?_
    rw [hbase, span_append]
    exact hne.symm

end GitSlice
