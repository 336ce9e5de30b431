import GitSlice.Library.EditGraph
import Mathlib.Data.List.GetD

/-! # Matching lines
`MatchLines` of `internal/diffutil/match.go`: the lines of two files that are the same, found by
trimming what the files have in common at both ends and by the greedy algorithm of `myersPairs` in
between. The source compares ids of lines; here the lines are compared. The array `v` over the
diagonals is a function, and the trace keeps one for each round.

`matchLines_spec` says what comes out: lines that are equal, in order (`Aligned`), and as many as
any common sublist has, unless the algorithm gave up. -/

namespace GitSlice

open List Function

variable {α : Type}

/-! ## The code -/

/-- The diagonal from which round `d` came to another one, by the values of the round before:
`prevK` of `backtrack`. -/
def prevDiagonal (d : Nat) (v : Int → Nat) (k : Int) : Int :=
  if k = -d ∨ (k ≠ d ∧ v (k - 1) < v (k + 1)) then k + 1 else k - 1

/-- The inner loop of `backtrack`. -/
def walkBack (prevX prevY : Nat) : Nat → Nat → List (Nat × Nat)
  | x + 1, y + 1 => if prevX < x + 1 ∧ prevY < y + 1 then (x, y) :: walkBack prevX prevY x y else []
  | _, _ => []

/-- The loop of `backtrack`, with the number of rounds left. -/
def backtrackFrom (trace : List (Int → Nat)) : Nat → Nat → Nat → List (Nat × Nat)
  | 0, _, _ => []
  | 1, x, y => walkBack 0 0 x y
  | d + 2, x, y =>
    let v := trace.getD d fun _ => 0
    let prevK := prevDiagonal (d + 1) v (x - y)
    let prevX := v prevK
    let prevY := (prevX - prevK).toNat
    walkBack prevX prevY x y ++ backtrackFrom trace (d + 1) prevX prevY

/-- The pairs on the path that reaches the corner. -/
def backtrack (trace : List (Int → Nat)) (n m : Nat) : List (Nat × Nat) :=
  backtrackFrom trace trace.length n m

/-- `-d, -d + 2, …, d`. -/
def diagonals (d : Nat) : List Int := (List.range (d + 1)).map fun i : Nat => -(d : Int) + 2 * i

/-- The edits after which the search gives up. -/
def defaultMaxEdits : Nat := 4000

variable [DecidableEq α]

/-- The loop of `myersPairs` over the diagonals of one round: the new values, and whether the end is
reached. -/
def myersRound (a b : List α) (d : Nat) : List Int → (Int → Nat) → (Int → Nat) × Bool
  | [], v => (v, false)
  | k :: ks, v =>
    let x := furthest a b d v k
    let v := Function.update v k x
    if a.length ≤ x ∧ (b.length : Int) ≤ x - k then (v, true) else myersRound a b d ks v

/-- The loop of `myersPairs` over the rounds: the trace when the end is reached. -/
def myersRounds (a b : List α) :
    Nat → Nat → (Int → Nat) → List (Int → Nat) → Option (List (Int → Nat))
  | 0, _, _, _ => none
  | left + 1, d, v, trace =>
    match myersRound a b d (diagonals d) v with
    | (v, true) => some (trace ++ [v])
    | (v, false) => myersRounds a b left (d + 1) v (trace ++ [v])

/-- The pairs of the greedy search, none if it gives up. -/
def myersPairs (a b : List α) (maxEdits : Nat) : List (Nat × Nat) :=
  if a = [] ∨ b = [] then []
  else
    match myersRounds a b (min (a.length + b.length) maxEdits + 1) 0 (fun _ => 0) [] with
    | some trace => backtrack trace a.length b.length
    | none => []

/-- `match[j] = i` for each of the pairs. -/
def assign (ms : List (Option Nat)) (ps : List (Nat × Nat)) : List (Option Nat) :=
  ps.foldl (fun ms p => ms.set p.2 (some p.1)) ms

/-- `MatchLines` with a limit. -/
def matchLinesWithin (limit : Nat) (old new : List α) : List (Option Nat) :=
  let pre := commonPrefix old new
  let a := old.drop pre
  let b := new.drop pre
  let suf := commonPrefix a.reverse b.reverse
  let pairs := myersPairs (a.take (a.length - suf)) (b.take (b.length - suf)) limit
  let ms := assign (List.replicate new.length none) ((List.range pre).map fun i => (i, i))
  let ms := assign ms ((List.range suf).map fun i => (old.length - 1 - i, new.length - 1 - i))
  assign ms (pairs.map fun p => (pre + p.1, pre + p.2))

/-- `MatchLines` with the default limit. -/
def matchLines (old new : List α) : List (Option Nat) := matchLinesWithin defaultMaxEdits old new

/-! ## Matchings -/

section Matchings

omit [DecidableEq α]

/-- Pairs found from the end to the front. -/
structure Backwards (a b : List α) (x y : Nat) (ps : List (Nat × Nat)) : Prop where
  sorted : ps.Pairwise fun p q => q.1 < p.1 ∧ q.2 < p.2
  equal : ∀ p ∈ ps, ∃ l, a[p.1]? = some l ∧ b[p.2]? = some l
  before : ∀ p ∈ ps, p.1 < x ∧ p.2 < y

theorem walkBack_spec {prevX prevY x y t : Nat} (hx : prevX ≤ x) (hy : prevY ≤ y)
    (ht : t = min (x - prevX) (y - prevY)) :
    (walkBack prevX prevY x y).length = t ∧
      (walkBack prevX prevY x y).Pairwise (fun p q => q.1 < p.1 ∧ q.2 < p.2) ∧
      ∀ p ∈ walkBack prevX prevY x y, x - t ≤ p.1 ∧ p.1 < x ∧ p.2 + x = p.1 + y := by
  induction x generalizing y t with
  | zero =>
    have hnil : walkBack prevX prevY 0 y = [] := by cases y <;> rfl
    rw [hnil]
    exact ⟨show 0 = t by omega, .nil, nofun⟩
  | succ x ih =>
    cases y with
    | zero => exact ⟨show 0 = t by omega, .nil, nofun⟩
    | succ y =>
      rw [walkBack]
      split_ifs with hcond
      · obtain ⟨hlen, hsorted, hmem⟩ := ih (y := y) (t := t - 1) (by omega) (by omega) (by omega)
        refine ⟨?_, ?_, ?_⟩
        · rw [length_cons]
          omega
        · rw [pairwise_cons]
          refine ⟨?_, hsorted⟩
          intro q hq
          have := hmem q hq
          omega
        · intro p hp
          rcases mem_cons.mp hp with rfl | hp
          · simp only
            omega
          · have := hmem p hp
            omega
      · exact ⟨show 0 = t by omega, .nil, nofun⟩

theorem Backwards.append {a b : List α} {x y s t prevX prevY : Nat} {ps : List (Nat × Nat)}
    (hps : Backwards a b prevX prevY ps) (hx : prevX ≤ x) (hy : prevY ≤ y)
    (ht : t = min (x - prevX) (y - prevY)) (hs : x = s + t)
    (hrun : ∀ i < t, ∃ l, a[s + i]? = some l ∧ b[y - t + i]? = some l) :
    Backwards a b x y (walkBack prevX prevY x y ++ ps) := by
  obtain ⟨-, hsorted, hmem⟩ := walkBack_spec hx hy ht
  refine ⟨?_, ?_, ?_⟩
  · rw [pairwise_append]
    refine ⟨hsorted, hps.sorted, ?_⟩
    intro p hp q hq
    have h₁ := hmem p hp
    have h₂ := hps.before q hq
    omega
  · intro p hp
    rcases mem_append.mp hp with hp | hp
    · have h₁ := hmem p hp
      obtain ⟨l, ha, hb⟩ := hrun (p.1 - s) (by omega)
      refine ⟨l, ?_, ?_⟩
      · rwa [show s + (p.1 - s) = p.1 by omega] at ha
      · rwa [show y - t + (p.1 - s) = p.2 by omega] at hb
    · exact hps.equal p hp
  · intro p hp
    rcases mem_append.mp hp with hp | hp
    · have h₁ := hmem p hp
      omega
    · have h₂ := hps.before p hp
      omega

end Matchings

/-! ## The rounds -/

/-- The values that round `d` reads: those of the round before. -/
def ReadyFor (a b : List α) : Nat → (Int → Nat) → Prop
  | 0, v => v 1 = 0
  | d + 1, v => ∀ k, OnRound d k → v k = reach a b d k

variable {a b : List α} {d : Nat} {v : Int → Nat} {k : Int}

theorem furthest_eq_reach (hv : ReadyFor a b d v) (hk : OnRound d k) :
    furthest a b d v k = reach a b d k := by
  have hstart : ∀ {w : Int → Nat}, startAt d v k = startAt d w k →
      furthest a b d v k = furthest a b d w k := by
    intro w h
    rw [furthest, furthest, h]
  cases d with
  | zero =>
    rw [onRound_zero] at hk
    subst hk
    refine hstart ?_
    rw [startAt_zero hv, startAt_zero rfl]
  | succ d =>
    exact hstart (startAt_congr hk hv)

theorem mem_diagonals : k ∈ diagonals d ↔ OnRound d k := by
  unfold diagonals OnRound
  rw [mem_map]
  constructor
  · rintro ⟨i, hi, rfl⟩
    rw [mem_range] at hi
    omega
  · rintro ⟨hlow, hhigh, hparity⟩
    refine ⟨((k + d) / 2).toNat, ?_, ?_⟩
    · rw [mem_range]
      omega
    · omega

theorem ReadyFor.update (hv : ReadyFor a b d v) (hk : OnRound d k) (x : Nat) :
    ReadyFor a b d (Function.update v k x) := by
  cases d with
  | zero =>
    rw [onRound_zero] at hk
    subst hk
    exact hv
  | succ d =>
    intro k' hk'
    have hne : k' ≠ k := by
      unfold OnRound at hk hk'
      omega
    rw [update_of_ne hne]
    exact hv k' hk'

/-- **One round** sets its diagonals to how far it reaches, or is at the end. -/
theorem myersRound_spec {ks : List Int} (hks : ∀ k ∈ ks, OnRound d k) (hv : ReadyFor a b d v) :
    ((myersRound a b d ks v).2 = true → ∃ k, OnRound d k ∧ AtEnd a b d k) ∧
      ((myersRound a b d ks v).2 = false → (∀ k ∈ ks, ¬ AtEnd a b d k) ∧
        ∀ k, (k ∈ ks ∨ v k = reach a b d k) → (myersRound a b d ks v).1 k = reach a b d k) := by
  induction ks generalizing v with
  | nil =>
    refine ⟨by simp [myersRound], fun _ => ⟨by simp, ?_⟩⟩
    rintro k (hk | hk)
    · cases hk
    · exact hk
  | cons k ks ih =>
    have hk := hks k mem_cons_self
    rw [myersRound, furthest_eq_reach hv hk]
    split_ifs with hend
    · exact ⟨fun _ => ⟨k, hk, hend⟩, by simp⟩
    · obtain ⟨htrue, hfalse⟩ := ih
        (fun k' hk' => hks k' (mem_cons_of_mem _ hk')) (hv.update hk _)
      refine ⟨htrue, fun hrun => ?_⟩
      obtain ⟨hnot, hvalues⟩ := hfalse hrun
      refine ⟨?_, ?_⟩
      · exact forall_mem_cons.mpr ⟨hend, hnot⟩
      · intro k' hk'
        refine hvalues k' ?_
        by_cases heq : k' = k
        · subst heq
          exact .inr (update_self _ _ _)
        · rcases hk' with hk' | hk'
          · exact .inl ((mem_cons.mp hk').resolve_left heq)
          · rw [update_of_ne heq]
            exact .inr hk'

/-- The trace has how far each of the first `d` rounds reached. -/
def TraceOf (a b : List α) (d : Nat) (trace : List (Int → Nat)) : Prop :=
  ∀ e k, e < d → OnRound e k → trace.getD e (fun _ => 0) k = reach a b e k

/-- **All rounds**: none of them is at the end, or the last one is the first at the end, with the
trace of those before it. -/
theorem myersRounds_spec (left : Nat) {trace : List (Int → Nat)} (hv : ReadyFor a b d v)
    (hd : trace.length = d) (htrace : TraceOf a b d trace)
    (hnot : ∀ e k, e < d → OnRound e k → ¬ AtEnd a b e k) :
    (myersRounds a b left d v trace = none ∧ ∀ e k, e < d + left → OnRound e k → ¬ AtEnd a b e k) ∨
      ∃ trace' last k, myersRounds a b left d v trace = some trace' ∧ last < d + left ∧
        trace'.length = last + 1 ∧ TraceOf a b last trace' ∧ OnRound last k ∧ AtEnd a b last k ∧
        ∀ e k, e < last → OnRound e k → ¬ AtEnd a b e k := by
  induction left generalizing d v trace with
  | zero => exact .inl ⟨rfl, hnot⟩
  | succ left ih =>
    rw [myersRounds]
    obtain ⟨htrue, hfalse⟩ := myersRound_spec (fun k hk => mem_diagonals.mp hk) hv
    cases hrun : myersRound a b d (diagonals d) v with
    | mk w done =>
      rw [hrun] at htrue hfalse
      cases done with
      | true =>
        obtain ⟨k, hk, hend⟩ := htrue rfl
        refine .inr ⟨_, d, k, rfl, by omega, by simp [hd], ?_, hk, hend, hnot⟩
        intro e k he hk
        rw [getD_append _ _ _ _ (by omega)]
        exact htrace e k he hk
      | false =>
        obtain ⟨hnotd, hvalues⟩ := hfalse rfl
        have hw : ∀ k, OnRound d k → w k = reach a b d k := fun k hk =>
          hvalues k (.inl (mem_diagonals.mpr hk))
        rw [show d + (left + 1) = d + 1 + left by omega]
        refine ih hw (by rw [length_append, hd]; rfl) ?_ ?_
        · intro e k he hk
          by_cases hlast : e = d
          · subst hlast
            rw [getD_append_right _ _ _ _ (by omega), hd, Nat.sub_self]
            exact hw k hk
          · rw [getD_append _ _ _ _ (by omega)]
            exact htrace e k (by omega) hk
        · intro e k he hk
          by_cases hlast : e = d
          · subst hlast
            exact hnotd k (mem_diagonals.mpr hk)
          · exact hnot e k (by omega) hk

theorem myersRounds_start (a b : List α) (limit : Nat) :
    (myersRounds a b (limit + 1) 0 (fun _ => 0) [] = none ∧
      ∀ e k, e ≤ limit → OnRound e k → ¬ AtEnd a b e k) ∨
      ∃ trace last, myersRounds a b (limit + 1) 0 (fun _ => 0) [] = some trace ∧ last ≤ limit ∧
        trace.length = last + 1 ∧ TraceOf a b last trace ∧ OnRound last (a.length - b.length) ∧
        reach a b last (a.length - b.length) = a.length ∧
        ∀ e k, e < last → OnRound e k → ¬ AtEnd a b e k := by
  have hready : ReadyFor a b 0 fun _ => 0 := rfl
  rcases myersRounds_spec (limit + 1) hready length_nil (fun e k he => absurd he (Nat.not_lt_zero e))
    (fun e k he => absurd he (Nat.not_lt_zero e)) with
    ⟨hnone, hnot⟩ | ⟨trace, last, k, hsome, hlt, hlen, htrace, hk, hend, hnot⟩
  · exact .inl ⟨hnone, fun e k he => hnot e k (by omega)⟩
  · obtain ⟨hreach, rfl⟩ := eq_end_of_reach hk hend fun d k hd => hnot d k (by omega)
    exact .inr ⟨trace, last, hsome, by omega, hlen, htrace, hk, hreach, hnot⟩

/-! ## The way back -/

theorem prevDiagonal_spec (hv : ReadyFor a b (d + 1) v) (hk : OnRound (d + 1) k) :
    OnRound d (prevDiagonal (d + 1) v k) ∧
      ((prevDiagonal (d + 1) v k = k + 1 ∧ startAt (d + 1) (reach a b d) k = reach a b d (k + 1)) ∨
        (prevDiagonal (d + 1) v k = k - 1 ∧
          startAt (d + 1) (reach a b d) k = reach a b d (k - 1) + 1)) := by
  have hstart := startAt_congr hk hv
  rw [← hstart]
  obtain ⟨hlow, hhigh, hparity⟩ := hk
  unfold prevDiagonal startAt
  split_ifs with h
  · have hround : OnRound d (k + 1) := by
      unfold OnRound
      omega
    exact ⟨hround, .inl ⟨rfl, hv _ hround⟩⟩
  · have hround : OnRound d (k - 1) := by
      unfold OnRound
      omega
    exact ⟨hround, .inr ⟨rfl, by rw [hv _ hround]⟩⟩

theorem furthest_run {i : Nat} (hi : startAt d v k + i < furthest a b d v k) :
    ∃ l, a[startAt d v k + i]? = some l ∧ b[(startAt d v k - k).toNat + i]? = some l := by
  obtain ⟨l, ha, hb⟩ := exists_of_lt_commonPrefix (a := a.drop (startAt d v k)) (b := b.drop (startAt d v k - k).toNat)
    (i := i) (by unfold furthest at hi; omega)
  rw [List.getElem?_drop] at ha hb
  exact ⟨l, ha, hb⟩

/-- **The way back** from where a round got. It takes the equal elements that each round followed,
and one edit for each round. -/
theorem backtrackFrom_spec {trace : List (Int → Nat)} {x y : Nat} (htrace : TraceOf a b d trace)
    (hk : OnRound d (x - y)) (hx : x = reach a b d (x - y)) :
    Backwards a b x y (backtrackFrom trace (d + 1) x y) ∧
      x + y = d + 2 * (backtrackFrom trace (d + 1) x y).length := by
  induction d generalizing x y with
  | zero =>
    rw [onRound_zero] at hk
    have hxy : x = y := by omega
    subst hxy
    have hreach : x = commonPrefix a b := by
      simpa [reach, furthest, startAt] using hx
    have hnil : Backwards a b 0 0 [] := ⟨.nil, by simp, by simp⟩
    have hlen := (walkBack_spec (Nat.zero_le x) (Nat.zero_le x) (t := x) (by omega)).1
    rw [backtrackFrom]
    have hrun := hnil.append (Nat.zero_le x) (Nat.zero_le x) (s := 0) (t := x) (by omega) (by omega) ?_
    · rw [append_nil] at hrun
      exact ⟨hrun, by omega⟩
    · intro i hi
      simpa using exists_of_lt_commonPrefix (a := a) (b := b) (i := i) (by omega)
  | succ d ih =>
    set k : Int := x - y with hkdef
    set v := trace.getD d fun _ => 0 with hvdef
    have hv : ReadyFor a b (d + 1) v := fun k hk => htrace d k (by omega) hk
    obtain ⟨hround, hcases⟩ := prevDiagonal_spec hv hk
    have hstart : startAt (d + 1) (reach a b d) k ≤ reach a b (d + 1) k := startAt_le_furthest _
    have hprev : v (prevDiagonal (d + 1) v k) = reach a b d (prevDiagonal (d + 1) v k) :=
      hv _ hround
    have hprevY := diagonal_le_reach (a := a) (b := b) hround
    rw [backtrackFrom]
    simp only [← hvdef]
    rw [hprev]
    -- the run of the round has the same length, whichever way it was entered
    generalize hpx : reach a b d (prevDiagonal (d + 1) v k) = prevX at *
    generalize hpk : prevDiagonal (d + 1) v k = prevK at *
    have hdiagonal : ((prevX : Int) - ((prevX - prevK).toNat : Nat)) = prevK := by omega
    obtain ⟨hback, hcost⟩ := ih
      (fun e k he => htrace e k (by omega)) (by rw [hdiagonal]; exact hround) (by rw [hdiagonal]; exact hpx.symm)
    generalize hs : startAt (d + 1) (reach a b d) k = s at *
    have hentered : (prevK = k + 1 ∧ s = prevX) ∨ (prevK = k - 1 ∧ s = prevX + 1) := by
      rcases hcases with ⟨hk', hs'⟩ | ⟨hk', hs'⟩
      · exact .inl ⟨hk', by rw [hs', ← hk', hpx]⟩
      · exact .inr ⟨hk', by rw [hs', ← hk', hpx]⟩
    have hxle : prevX ≤ x := by omega
    have hyle : (prevX - prevK).toNat ≤ y := by omega
    have ht : x - s = min (x - prevX) (y - (prevX - prevK).toNat) := by omega
    have hlen := (walkBack_spec hxle hyle ht).1
    refine ⟨hback.append hxle hyle ht (s := s) (by omega) ?_, ?_⟩
    · intro i hi
      have hrun := furthest_run (by
        rw [hs]
        show s + i < reach a b (d + 1) k
        omega)
      rw [hs] at hrun
      rwa [show y - (x - s) + i = (s - k).toNat + i by omega]
    · rw [length_append]
      omega

/-- The pairs of a search that got to the end: what they leave are edits within the limit, and there
is no longer common sublist. -/
theorem backtrack_spec {limit : Nat} {trace : List (Int → Nat)}
    (h : myersRounds a b (limit + 1) 0 (fun _ => 0) [] = some trace) :
    Backwards a b a.length b.length (backtrack trace a.length b.length) ∧
      (∃ last ≤ limit, last + 2 * (backtrack trace a.length b.length).length =
        a.length + b.length) ∧
      ∀ l : List α, l.Sublist a → l.Sublist b →
        l.length ≤ (backtrack trace a.length b.length).length := by
  rcases myersRounds_start a b limit with ⟨hnone, -⟩ | ⟨trace', last, hsome, hlimit, hlen, htrace, hk, hreach, hnot⟩
  · rw [h] at hnone
    cases hnone
  obtain rfl : trace = trace' := Option.some.inj (h.symm.trans hsome)
  obtain ⟨hback, hcost⟩ := backtrackFrom_spec htrace hk hreach.symm
  rw [← hlen] at hback hcost
  refine ⟨hback, ⟨last, hlimit, by rw [backtrack]; omega⟩, fun l hla hlb => ?_⟩
  -- a longer sublist is a path with fewer edits, whose round would be at the end before
  obtain ⟨e, hpath, he⟩ := EditPath.of_sublists hla hlb (Nat.zero_le _) (Nat.zero_le _)
  obtain ⟨hround, hle⟩ := le_reach hpath
  have hlast : last ≤ e := by
    by_contra hlt
    exact hnot e _ (by omega) hround ⟨hle, by omega⟩
  rw [backtrack]
  omega

/-- **The pairs of `myersPairs`** are equal elements, from the end to the front, and there is no
longer common sublist unless the limit is passed. -/
theorem myersPairs_spec (a b : List α) (maxEdits : Nat) :
    Backwards a b a.length b.length (myersPairs a b maxEdits) ∧
      (myersPairs a b maxEdits = [] ∧ a ≠ [] ∧ b ≠ [] ∨
        ∀ l : List α, l.Sublist a → l.Sublist b → l.length ≤ (myersPairs a b maxEdits).length) := by
  rw [myersPairs]
  split_ifs with hempty
  · refine ⟨⟨.nil, nofun, nofun⟩, .inr fun l ha hb => ?_⟩
    rcases hempty with rfl | rfl
    · exact ha.length_le
    · exact hb.length_le
  · rw [not_or] at hempty
    cases hrounds : myersRounds a b (min (a.length + b.length) maxEdits + 1) 0 (fun _ => 0) [] with
    | none => exact ⟨⟨.nil, nofun, nofun⟩, .inl ⟨rfl, hempty⟩⟩
    | some trace =>
      obtain ⟨hback, -, hlongest⟩ := backtrack_spec hrounds
      exact ⟨hback, .inr hlongest⟩

/-! ## The matched lines -/

section Aligned

omit [DecidableEq α]

/-- The matches of the lines `b` with lines of `a`, whose first has the index `pos`: a line is
added, or is the line of `a` after some others. -/
inductive Aligned : Nat → List α → List α → List (Option Nat) → Prop where
  | done (pos : Nat) (a : List α) : Aligned pos a [] []
  | added {pos : Nat} {a b : List α} {ms : List (Option Nat)} (l : α) (h : Aligned pos a b ms) :
    Aligned pos a (l :: b) (none :: ms)
  | kept {pos : Nat} {a b : List α} {ms : List (Option Nat)} (d : List α) (l : α)
    (h : Aligned (pos + d.length + 1) a b ms) :
    Aligned pos (d ++ l :: a) (l :: b) (some (pos + d.length) :: ms)

/-- How many lines are matched. -/
def keptCount (ms : List (Option Nat)) : Nat := (ms.filterMap id).length

@[simp] theorem keptCount_nil : keptCount [] = 0 := rfl

@[simp] theorem keptCount_none (ms : List (Option Nat)) : keptCount (none :: ms) = keptCount ms :=
  rfl

@[simp] theorem keptCount_some (i : Nat) (ms : List (Option Nat)) :
    keptCount (some i :: ms) = keptCount ms + 1 := rfl

variable (ms ms' : List (Option Nat))

@[simp] theorem keptCount_append : keptCount (ms ++ ms') = keptCount ms + keptCount ms' := by
  simp [keptCount]

variable (n : Nat)

@[simp] theorem keptCount_replicate : keptCount (List.replicate n none) = 0 := by
  induction n with
  | zero => rfl
  | succ n ih => simpa [replicate_succ] using ih

/-- The matches of lines that are all kept. -/
def keptRun (pos n : Nat) : List (Option Nat) := (List.range n).map fun i => some (pos + i)

theorem keptRun_succ (pos n : Nat) : keptRun pos (n + 1) = some pos :: keptRun (pos + 1) n := by
  unfold keptRun
  rw [range_succ_eq_map, map_cons, map_map]
  congr 1
  refine map_congr_left fun i _ => ?_
  simp only [comp_apply]
  congr 1
  omega

@[simp] theorem keptCount_keptRun (pos n : Nat) : keptCount (keptRun pos n) = n := by
  induction n generalizing pos with
  | zero => rfl
  | succ n ih => rw [keptRun_succ, keptCount_some, ih]

namespace Aligned

theorem run (pos : Nat) (a : List α) : Aligned pos a a (keptRun pos a.length) := by
  induction a generalizing pos with
  | nil => exact .done pos []
  | cons l a ih =>
    rw [length_cons, keptRun_succ]
    exact .kept [] l (ih (pos + 1))

theorem replicate (pos : Nat) (a b : List α) : Aligned pos a b (List.replicate b.length none) := by
  induction b with
  | nil => exact .done pos a
  | cons l b ih => exact .added l ih

variable {pos : Nat}

theorem skip {a b : List α} {ms : List (Option Nat)} (d : List α)
    (h : Aligned (pos + d.length) a b ms) :
    Aligned pos (d ++ a) b ms := by
  generalize hpos : pos + d.length = start at h
  induction h with
  | done => exact .done pos _
  | added l _ ih => exact .added l (ih hpos)
  | kept d' l h _ =>
    subst hpos
    rw [← append_assoc, show pos + d.length + d'.length = pos + (d ++ d').length by simp; omega]
    refine .kept (d ++ d') l ?_
    rwa [length_append, ← Nat.add_assoc]

theorem append {a b a' b' : List α} {ms ms' : List (Option Nat)} (h : Aligned pos a b ms)
    (h' : Aligned (pos + a.length) a' b' ms') : Aligned pos (a ++ a') (b ++ b') (ms ++ ms') := by
  induction h with
  | done pos a => exact skip a h'
  | added l _ ih => exact .added l (ih h')
  | @kept pos a b ms d l _ ih =>
    rw [append_assoc]
    refine .kept d l (ih ?_)
    rwa [show pos + d.length + 1 + a.length = pos + (d ++ l :: a).length by simp; omega]

end Aligned

/-! ### Assignments -/

variable {ps : List (Nat × Nat)}

theorem assign_append {ms : List (Option Nat)} (ms' : List (Option Nat))
    (hps : ∀ p ∈ ps, p.2 < ms.length) : assign (ms ++ ms') ps = assign ms ps ++ ms' := by
  induction ps generalizing ms with
  | nil => rfl
  | cons p ps ih =>
    show assign ((ms ++ ms').set p.2 (some p.1)) ps = assign (ms.set p.2 (some p.1)) ps ++ ms'
    rw [set_append_left _ _ (hps p mem_cons_self)]
    refine ih fun q hq => ?_
    rw [length_set]
    exact hps q (mem_cons_of_mem _ hq)

theorem assign_shift (ps : List (Nat × Nat)) :
    assign (ms ++ ms') (ps.map fun p => (p.1, ms.length + p.2)) = ms ++ assign ms' ps := by
  induction ps generalizing ms' with
  | nil => rfl
  | cons p ps ih =>
    show assign ((ms ++ ms').set (ms.length + p.2) (some p.1)) _ =
      ms ++ assign (ms'.set p.2 (some p.1)) ps
    rw [set_append_right _ _ (Nat.le_add_right _ _), Nat.add_sub_cancel_left]
    exact ih _

theorem assign_last {n i j : Nat} (hj : j < n) (hps : ∀ p ∈ ps, p.2 < j) :
    assign (List.replicate n none) ((i, j) :: ps) =
      assign (List.replicate j none) ps ++ some i :: List.replicate (n - j - 1) none := by
  have hset : (List.replicate n (none : Option Nat)).set j (some i) =
      List.replicate j none ++ some i :: List.replicate (n - j - 1) none := by
    rw [show n = j + (n - j - 1 + 1) by omega, ← replicate_append_replicate, replicate_succ,
      set_append_right _ _ (by simp)]
    simp
  show assign ((List.replicate n none).set j (some i)) ps = _
  rw [hset]
  refine assign_append _ ?_
  simpa using hps

theorem assign_front :
    assign (List.replicate n none) ((List.range n).map fun i => (i, i)) = keptRun 0 n := by
  induction n with
  | zero => rfl
  | succ n ih =>
    have hlast : assign (List.replicate (n + 1) none) ((List.range n).map fun i => (i, i)) =
        keptRun 0 n ++ [none] := by
      rw [replicate_succ', assign_append _ (by simp), ih]
    have hset : keptRun 0 (n + 1) = keptRun 0 n ++ [some n] := by simp [keptRun, range_succ]
    have hn : (keptRun 0 n).length = n := by simp [keptRun]
    rw [range_succ, map_append, hset]
    unfold assign at hlast ⊢
    rw [foldl_append, hlast, map_singleton, foldl_cons, foldl_nil,
      set_append_right _ _ (by omega), hn, Nat.sub_self]
    rfl

theorem assign_back (pos n : Nat) :
    assign (List.replicate n none) ((List.range n).map fun i => (pos + n - 1 - i, n - 1 - i)) =
      keptRun pos n := by
  induction n with
  | zero => rfl
  | succ n ih =>
    have hrest : (List.range n).map ((fun i => (pos + (n + 1) - 1 - i, n + 1 - 1 - i)) ∘ Nat.succ) =
        (List.range n).map fun i => (pos + n - 1 - i, n - 1 - i) := by
      refine map_congr_left fun i _ => ?_
      simp only [comp_apply, Prod.mk.injEq]
      omega
    rw [range_succ_eq_map, map_cons, map_map, hrest]
    simp only [Nat.sub_zero, Nat.add_sub_cancel]
    rw [assign_last (by omega), ih]
    · simp [keptRun, range_succ]
    · intro p hp
      obtain ⟨i, hi, rfl⟩ := mem_map.mp hp
      rw [mem_range] at hi
      omega

/-- The pairs of `myersPairs` are the matches of the lines between. -/
theorem Backwards.aligned {a b : List α} {x y : Nat} (h : Backwards a b x y ps) (hx : x ≤ a.length)
    (hy : y ≤ b.length) (pos : Nat) :
    Aligned pos (a.take x) (b.take y) (assign (List.replicate y none) (ps.map fun p => (pos + p.1, p.2))) ∧
      keptCount (assign (List.replicate y none) (ps.map fun p => (pos + p.1, p.2))) =
        ps.length := by
  induction ps generalizing x y with
  | nil =>
    have hreplicate := Aligned.replicate pos (a.take x) (b.take y)
    rw [length_take_of_le hy] at hreplicate
    exact ⟨hreplicate, keptCount_replicate y⟩
  | cons p ps ih =>
    obtain ⟨i, j⟩ := p
    obtain ⟨hfirst, hsorted⟩ := pairwise_cons.mp h.sorted
    obtain ⟨l, hi, hj⟩ := h.equal (i, j) mem_cons_self
    obtain ⟨hix, hjy⟩ := h.before (i, j) mem_cons_self
    obtain ⟨haligned, hcount⟩ := ih
      ⟨hsorted, fun q hq => h.equal q (mem_cons_of_mem _ hq), hfirst⟩ (by omega) (by omega)
    have hps : ∀ q ∈ ps.map (fun p => (pos + p.1, p.2)), q.2 < j := by
      intro q hq
      obtain ⟨q', hq', rfl⟩ := mem_map.mp hq
      exact (hfirst q' hq').2
    rw [map_cons, assign_last hjy hps]
    refine ⟨?_, by simp [hcount]⟩
    have htake : ∀ {s : List α} {n m : Nat}, m < n → s[m]? = some l →
        s.take n = s.take m ++ (l :: (s.drop (m + 1)).take (n - m - 1)) := by
      intro s n m hlt hget
      rw [show n = m + (n - m - 1 + 1) by omega, take_add, drop_eq_getElem?_toList_append, hget]
      simp
    rw [htake hix hi, htake hjy hj]
    refine haligned.append ?_
    rw [length_take_of_le (by omega)]
    refine .kept [] l ?_
    have hreplicate := Aligned.replicate (pos + i + 1) ((a.drop (i + 1)).take (x - i - 1))
      ((b.drop (j + 1)).take (y - j - 1))
    rwa [length_take_of_le (by rw [length_drop]; omega)] at hreplicate

end Aligned

/-! ## `MatchLines` -/

variable (old new : List α)

theorem exists_front :
    ∃ front a b, old = front ++ a ∧ new = front ++ b ∧ commonPrefix old new = front.length ∧
      ∀ l, a.head? = some l → b.head? ≠ some l := by
  refine ⟨old.take (commonPrefix old new), old.drop (commonPrefix old new),
    new.drop (commonPrefix old new), (take_append_drop _ _).symm, ?_, ?_, ?_⟩
  · rw [take_commonPrefix, take_append_drop]
  · rw [length_take_of_le (commonPrefix_le old new).1]
  · intro l
    rw [List.head?_drop, List.head?_drop]
    exact commonPrefix_maximal

theorem exists_back (a₀ b₀ : List α) :
    ∃ a b back, a₀ = a ++ back ∧ b₀ = b ++ back ∧
      commonPrefix (a ++ back).reverse (b ++ back).reverse = back.length := by
  obtain ⟨back, a, b, ha, hb, hlen, -⟩ := exists_front a₀.reverse b₀.reverse
  refine ⟨a.reverse, b.reverse, back.reverse, ?_, ?_, ?_⟩
  · rw [← reverse_append, ← ha, reverse_reverse]
  · rw [← reverse_append, ← hb, reverse_reverse]
  · rw [← reverse_append, ← reverse_append, reverse_reverse, reverse_reverse, ← ha, ← hb, hlen,
      length_reverse]

omit [DecidableEq α] in
theorem exists_sublist_between {l front back : List α} (ha : l.Sublist (front ++ (a ++ back)))
    (hb : l.Sublist (front ++ (b ++ back))) :
    ∃ l' : List α, l'.Sublist a ∧ l'.Sublist b ∧
      l.length ≤ front.length + l'.length + back.length := by
  have hbetween : ∀ {c : List α}, l.Sublist (front ++ (c ++ back)) →
      (((l.drop front.length).reverse.drop back.length).reverse).Sublist c := by
    intro c h
    have hfront := h.drop front.length
    rw [drop_left] at hfront
    have hback := hfront.reverse.drop back.length
    rwa [reverse_append, drop_left' (length_reverse), ← reverse_sublist,
      reverse_reverse] at hback
  refine ⟨_, hbetween ha, hbetween hb, ?_⟩
  simp only [length_reverse, length_drop]
  omega

section

variable {old new front back : List α} (hold : old = front ++ (a ++ back)) (hnew : new = front ++ (b ++ back))
  (hfront : commonPrefix old new = front.length)
  (hback : commonPrefix (a ++ back).reverse (b ++ back).reverse = back.length) (limit : Nat)
include hold hnew hfront hback limit

theorem matchLines_eq :
    matchLinesWithin limit old new = keptRun 0 front.length ++
      (assign (List.replicate b.length none)
          ((myersPairs a b limit).map fun p => (front.length + p.1, p.2)) ++
        keptRun (front.length + a.length) back.length) := by
  have hlen : ∀ pos n, (keptRun pos n).length = n := by simp [keptRun]
  have hpairs := (myersPairs_spec a b limit).1.before
  have hends : (List.range back.length).map (fun i => (old.length - 1 - i, new.length - 1 - i)) =
      ((List.range back.length).map fun i =>
        (front.length + a.length + back.length - 1 - i, back.length - 1 - i)).map fun p =>
          (p.1, (keptRun 0 front.length ++ List.replicate b.length none).length + p.2) := by
    rw [map_map]
    refine map_congr_left fun i hi => ?_
    rw [mem_range] at hi
    simp only [hold, hnew, hlen, comp_apply, length_append, length_replicate,
      Prod.mk.injEq]
    omega
  have hmiddle : (myersPairs a b limit).map (fun p => (front.length + p.1, front.length + p.2)) =
      ((myersPairs a b limit).map fun p => (front.length + p.1, p.2)).map fun p =>
        (p.1, (keptRun 0 front.length).length + p.2) := by
    rw [map_map, hlen]
    rfl
  have hnone : List.replicate new.length (none : Option Nat) = List.replicate front.length none ++
      (List.replicate b.length none ++ List.replicate back.length none) := by
    simp [hnew]
  have ha : old.drop front.length = a ++ back := by simp [hold]
  have hb : new.drop front.length = b ++ back := by simp [hnew]
  simp only [matchLinesWithin, hfront, ha, hb, hback]
  rw [hnone, assign_append _ (by simp), assign_front, ← append_assoc, hends, assign_shift,
    assign_back, append_assoc, length_append, length_append, Nat.add_sub_cancel, Nat.add_sub_cancel,
    take_left', take_left', hmiddle, assign_shift, assign_append]
  · intro p hp
    obtain ⟨q, hq, rfl⟩ := mem_map.mp hp
    rw [length_replicate]
    exact (hpairs q hq).2
  · rfl
  · rfl

theorem aligned_matchLines :
    Aligned 0 old new (matchLinesWithin limit old new) ∧
      keptCount (matchLinesWithin limit old new) =
        front.length + (myersPairs a b limit).length + back.length := by
  obtain ⟨haligned, hcount⟩ := (myersPairs_spec a b limit).1.aligned (le_refl _) (le_refl _) front.length
  rw [take_length, take_length] at haligned
  rw [matchLines_eq hold hnew hfront hback]
  refine ⟨?_, ?_⟩
  · rw [hold, hnew]
    refine (Aligned.run 0 front).append ?_
    rw [Nat.zero_add]
    exact haligned.append (Aligned.run _ back)
  · simp only [keptCount_append, keptCount_keptRun]
    omega

end

/-- **The matches of `MatchLines`** are equal lines, and as many as there can be; or it gave up, and
kept only the lines in common at the front and at the end. -/
theorem matchLines_spec :
    Aligned 0 old new (matchLines old new) ∧
      ((∀ l : List α, l.Sublist old → l.Sublist new → l.length ≤ keptCount (matchLines old new)) ∨
        ∃ front a b back, old = front ++ (a ++ back) ∧ new = front ++ (b ++ back) ∧ a ≠ b ∧
          matchLines old new = keptRun 0 front.length ++
            (List.replicate b.length none ++ keptRun (front.length + a.length) back.length)) := by
  obtain ⟨front, a₀, b₀, hold, hnew, hfront, hfirst⟩ := exists_front old new
  obtain ⟨a, b, back, rfl, rfl, hback⟩ := exists_back a₀ b₀
  obtain ⟨haligned, hcount⟩ := aligned_matchLines hold hnew hfront hback defaultMaxEdits
  refine ⟨haligned, ?_⟩
  rcases (myersPairs_spec a b defaultMaxEdits).2 with ⟨hnone, ha, hb⟩ | hlongest
  · refine .inr ⟨front, a, b, back, hold, hnew, ?_, ?_⟩
    · rintro rfl
      obtain ⟨l, a', rfl⟩ := exists_cons_of_ne_nil ha
      exact hfirst l rfl rfl
    · rw [matchLines, matchLines_eq hold hnew hfront hback, hnone]
      rfl
  · refine .inl fun l hl hl' => ?_
    rw [matchLines]
    rw [hold] at hl
    rw [hnew] at hl'
    obtain ⟨l', ha, hb, hle⟩ := exists_sublist_between hl hl'
    have := hlongest l' ha hb
    omega

end GitSlice
