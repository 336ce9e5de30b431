import Mathlib.Tactic.Linarith

/-! # The edit graph of two lists
A path in the edit graph of `a` and `b` goes from `(x, y)` by deleting `a[x]`, by inserting `b[y]`,
or by keeping an element that is both, and costs one for each deletion and insertion.
`reach a b d k` is how far the greedy algorithm gets with `d` edits on the diagonal `x - y = k`: it
goes on from a neighbouring diagonal and follows equal elements. `le_reach` says that no path gets
further, so the first `d` that reaches the end is the least cost, and `eq_end_of_reach` that the
algorithm, which lets `x` and `y` run past the ends, first reaches the end at the end itself. -/

namespace GitSlice

open List

variable {α : Type}

/-! ## Paths -/

/-- A path from `(x, y)` and its cost. -/
inductive EditPath (a b : List α) (x y : Nat) : Nat → Nat → Nat → Prop where
  | refl : EditPath a b x y 0 x y
  | delete {d x' y' : Nat} (h : EditPath a b x y d x' y') (hx : x' < a.length) :
    EditPath a b x y (d + 1) (x' + 1) y'
  | insert {d x' y' : Nat} (h : EditPath a b x y d x' y') (hy : y' < b.length) :
    EditPath a b x y (d + 1) x' (y' + 1)
  | keep {d x' y' : Nat} {l : α} (h : EditPath a b x y d x' y') (hx : a[x']? = some l)
    (hy : b[y']? = some l) : EditPath a b x y d (x' + 1) (y' + 1)

namespace EditPath

variable {a b : List α} {x y d x' y' : Nat}

theorem trans {d' x'' y'' : Nat} (h : EditPath a b x y d x' y')
    (h' : EditPath a b x' y' d' x'' y'') :
    EditPath a b x y (d + d') x'' y'' := by
  induction h' with
  | refl => exact h
  | delete _ hx ih => exact .delete ih hx
  | insert _ hy ih => exact .insert ih hy
  | keep _ hx hy ih => exact .keep ih hx hy

theorem deletes (n : Nat) (hn : x + n ≤ a.length) : EditPath a b x y n (x + n) y := by
  induction n with
  | zero => exact .refl
  | succ n ih => exact .delete (ih (by omega)) (show x + n < a.length by omega)

theorem inserts (n : Nat) (hn : y + n ≤ b.length) : EditPath a b x y n x (y + n) := by
  induction n with
  | zero => exact .refl
  | succ n ih => exact .insert (ih (by omega)) (show y + n < b.length by omega)

theorem replaces (hx : x ≤ x') (hx' : x' ≤ a.length) (hy : y ≤ y') (hy' : y' ≤ b.length) :
    EditPath a b x y ((x' - x) + (y' - y)) x' y' := by
  have hdeletes := deletes (a := a) (b := b) (x := x) (y := y) (x' - x) (by omega)
  have hinserts := inserts (a := a) (b := b) (x := x') (y := y) (y' - y) (by omega)
  rw [show x + (x' - x) = x' by omega] at hdeletes
  rw [show y + (y' - y) = y' by omega] at hinserts
  exact hdeletes.trans hinserts

theorem exists_of_cons_sublist_drop {l : List α} {c : α} (h : (c :: l).Sublist (a.drop x)) :
    ∃ i, x ≤ i ∧ a[i]? = some c ∧ l.Sublist (a.drop (i + 1)) := by
  obtain ⟨front, back, hsplit, hc, hl⟩ := cons_sublist_iff.mp h
  obtain ⟨before, after, rfl⟩ := append_of_mem hc
  have hdrop : a.drop (x + before.length) = c :: (after ++ back) := by
    rw [← drop_drop, hsplit]
    simp
  refine ⟨x + before.length, by omega, ?_, ?_⟩
  · rw [← List.head?_drop, hdrop, List.head?_cons]
  · rw [← drop_drop, hdrop]
    exact hl.trans (sublist_append_right after back)

theorem of_sublists {l : List α} (ha : l.Sublist (a.drop x)) (hb : l.Sublist (b.drop y))
    (hx : x ≤ a.length) (hy : y ≤ b.length) :
    ∃ d, EditPath a b x y d a.length b.length ∧
      d + 2 * l.length = (a.length - x) + (b.length - y) := by
  induction l generalizing x y with
  | nil => exact ⟨_, replaces hx (le_refl _) hy (le_refl _), by simp⟩
  | cons c l ih =>
    obtain ⟨i, hi, hai, ha'⟩ := exists_of_cons_sublist_drop ha
    obtain ⟨j, hj, hbj, hb'⟩ := exists_of_cons_sublist_drop hb
    have hia := (List.getElem?_eq_some_iff.mp hai).1
    have hjb := (List.getElem?_eq_some_iff.mp hbj).1
    obtain ⟨d, hpath, hcost⟩ := ih ha' hb' hia hjb
    have hto := replaces (a := a) (b := b) hi (by omega) hj (by omega)
    refine ⟨_, (keep hto hai hbj).trans hpath, ?_⟩
    rw [length_cons]
    omega

end EditPath

/-! ## Common elements -/

variable [DecidableEq α]

/-- The number of elements two lists have in common at their front. -/
def commonPrefix : List α → List α → Nat
  | x :: a, y :: b => if x = y then commonPrefix a b + 1 else 0
  | _, _ => 0

theorem commonPrefix_le (a b : List α) :
    commonPrefix a b ≤ a.length ∧ commonPrefix a b ≤ b.length := by
  fun_induction commonPrefix a b with
  | case1 x a b ih =>
    simp only [length_cons]
    omega
  | case2 | case3 => simp

theorem take_commonPrefix (a b : List α) :
    a.take (commonPrefix a b) = b.take (commonPrefix a b) := by
  fun_induction commonPrefix a b with
  | case1 x a b ih => rw [take_succ_cons, take_succ_cons, ih]
  | case2 | case3 => rfl

theorem exists_of_lt_commonPrefix {a b : List α} {i : Nat} (h : i < commonPrefix a b) :
    ∃ l, a[i]? = some l ∧ b[i]? = some l := by
  have hi := h.trans_le (commonPrefix_le a b).1
  refine ⟨a[i], List.getElem?_eq_getElem hi, ?_⟩
  rw [← List.getElem?_take_of_lt h, ← take_commonPrefix, List.getElem?_take_of_lt h,
    List.getElem?_eq_getElem hi]

theorem commonPrefix_maximal {a b : List α} {l : α} (ha : a[commonPrefix a b]? = some l) :
    b[commonPrefix a b]? ≠ some l := by
  fun_induction commonPrefix a b with
  | case1 x a b ih => exact ih ha
  | case2 x a y b hxy =>
    cases ha
    simpa using Ne.symm hxy
  | case3 a b hne =>
    cases a with
    | nil => cases ha
    | cons x a =>
      cases b with
      | nil => nofun
      | cons y b => exact absurd rfl (hne x a y b rfl)

/-! ## The greedy algorithm -/

/-- The diagonals of round `d`. -/
def OnRound (d : Nat) (k : Int) : Prop := -d ≤ k ∧ k ≤ d ∧ (k + d) % 2 = 0

/-- Where round `d` starts on a diagonal, after the values `v` of the round before. -/
def startAt (d : Nat) (v : Int → Nat) (k : Int) : Nat :=
  if k = -d ∨ (k ≠ d ∧ v (k - 1) < v (k + 1)) then v (k + 1) else v (k - 1) + 1

/-- How far round `d` gets on a diagonal. -/
def furthest (a b : List α) (d : Nat) (v : Int → Nat) (k : Int) : Nat :=
  startAt d v k + commonPrefix (a.drop (startAt d v k)) (b.drop (startAt d v k - k).toNat)

/-- How far the rounds get. -/
def reach (a b : List α) : Nat → Int → Nat
  | 0 => furthest a b 0 fun _ => 0
  | d + 1 => furthest a b (d + 1) (reach a b d)

section Reach

variable {a b : List α} {d : Nat} {k : Int}

theorem startAt_le_furthest (v : Int → Nat) : startAt d v k ≤ furthest a b d v k :=
  Nat.le_add_right _ _

theorem startAt_zero {v : Int → Nat} (hv : v 1 = 0) : startAt 0 v 0 = 0 := by
  simp [startAt, hv]

theorem onRound_zero : OnRound 0 k ↔ k = 0 := by
  unfold OnRound
  omega

theorem startAt_ge {v : Int → Nat} :
    (k < d + 1 → v (k + 1) ≤ startAt (d + 1) v k) ∧
      (-(d + 1) < k → v (k - 1) + 1 ≤ startAt (d + 1) v k) := by
  unfold startAt
  split_ifs with h
  · exact ⟨fun _ => le_refl _, fun _ => by omega⟩
  · exact ⟨fun _ => by omega, fun _ => le_refl _⟩

section

variable (hk : OnRound (d + 1) k)
include hk

theorem startAt_cases (v : Int → Nat) :
    (OnRound d (k + 1) ∧ startAt (d + 1) v k = v (k + 1)) ∨
      (OnRound d (k - 1) ∧ startAt (d + 1) v k = v (k - 1) + 1) := by
  obtain ⟨hlow, hhigh, hparity⟩ := hk
  unfold startAt OnRound
  split_ifs with h
  · refine .inl ⟨?_, rfl⟩
    omega
  · refine .inr ⟨?_, rfl⟩
    omega

theorem startAt_congr {v w : Int → Nat} (h : ∀ k, OnRound d k → v k = w k) :
    startAt (d + 1) v k = startAt (d + 1) w k := by
  obtain ⟨hlow, hhigh, hparity⟩ := hk
  unfold startAt
  by_cases h₁ : k = -((d + 1 : Nat) : Int)
  · rw [if_pos (.inl h₁), if_pos (.inl h₁), h _ (by unfold OnRound; omega)]
  · by_cases h₂ : k = ((d + 1 : Nat) : Int)
    · rw [if_neg (by tauto), if_neg (by tauto), h _ (by unfold OnRound; omega)]
    · rw [h (k + 1) (by unfold OnRound; omega), h (k - 1) (by unfold OnRound; omega)]

/-- The paths stay to the right of the first column: `y` is not negative. -/
theorem le_startAt (ih : ∀ k, OnRound d k → k ≤ reach a b d k) :
    k ≤ startAt (d + 1) (reach a b d) k := by
  rcases startAt_cases hk (reach a b d) with ⟨hk', hstart⟩ | ⟨hk', hstart⟩
  · have := ih _ hk'
    omega
  · have := ih _ hk'
    omega

end

theorem diagonal_le_reach (hk : OnRound d k) : k ≤ reach a b d k := by
  induction d generalizing k with
  | zero =>
    rw [onRound_zero] at hk
    omega
  | succ d ih =>
    have h := le_startAt hk fun k hk => ih hk
    have h' : startAt (d + 1) (reach a b d) k ≤ reach a b (d + 1) k := startAt_le_furthest _
    omega

theorem reach_maximal (hk : OnRound d k) {l : α} (ha : a[reach a b d k]? = some l) :
    b[(reach a b d k - k).toNat]? ≠ some l := by
  have hmaximal : ∀ {v : Int → Nat}, k ≤ startAt d v k → a[furthest a b d v k]? = some l →
      b[(furthest a b d v k - k).toNat]? ≠ some l := by
    intro v hy hl
    unfold furthest at hl ⊢
    rw [← List.getElem?_drop] at hl
    have hb := commonPrefix_maximal hl
    rw [List.getElem?_drop] at hb
    convert hb using 3
    omega
  cases d with
  | zero =>
    rw [onRound_zero] at hk
    exact hmaximal (by omega) ha
  | succ d => exact hmaximal (le_startAt hk fun _ h => diagonal_le_reach h) ha

theorem reach_down (a b : List α) (hk : OnRound d (k + 1)) :
    OnRound (d + 1) k ∧ reach a b d (k + 1) ≤ reach a b (d + 1) k := by
  have hk' : OnRound (d + 1) k := by
    unfold OnRound at hk ⊢
    omega
  have hge := (startAt_ge (d := d) (k := k) (v := reach a b d)).1 (by unfold OnRound at hk; omega)
  exact ⟨hk', hge.trans (startAt_le_furthest _)⟩

theorem reach_right (a b : List α) (hk : OnRound d (k - 1)) :
    OnRound (d + 1) k ∧ reach a b d (k - 1) + 1 ≤ reach a b (d + 1) k := by
  have hk' : OnRound (d + 1) k := by
    unfold OnRound at hk ⊢
    omega
  have hge := (startAt_ge (d := d) (k := k) (v := reach a b d)).2 (by unfold OnRound at hk; omega)
  exact ⟨hk', hge.trans (startAt_le_furthest _)⟩

/-- **No path gets further.** -/
theorem le_reach {x y : Nat} (h : EditPath a b 0 0 d x y) :
    OnRound d (x - y) ∧ x ≤ reach a b d (x - y) := by
  induction h with
  | refl => exact ⟨onRound_zero.mpr (by omega), Nat.zero_le _⟩
  | @delete d x y _ hx ih =>
    obtain ⟨hk, hle⟩ := ih
    rw [show (x - y : Int) = ↑(x + 1) - y - 1 by omega] at hk hle
    obtain ⟨hk', hge⟩ := reach_right a b hk
    exact ⟨hk', by omega⟩
  | @insert d x y _ hy ih =>
    obtain ⟨hk, hle⟩ := ih
    rw [show (x - y : Int) = x - ↑(y + 1) + 1 by omega] at hk hle
    obtain ⟨hk', hge⟩ := reach_down a b hk
    exact ⟨hk', hle.trans hge⟩
  | @keep d x y l _ hx hy ih =>
    obtain ⟨hk, hle⟩ := ih
    rw [show (↑(x + 1) - ↑(y + 1) : Int) = x - y by omega]
    refine ⟨hk, ?_⟩
    rcases Nat.lt_or_ge x (reach a b d (x - y)) with hlt | hge
    · exact hlt
    · -- the round does not stop before elements that are equal
      have heq : reach a b d (x - y) = x := by omega
      have hmax := reach_maximal hk (heq.symm ▸ hx)
      rw [heq] at hmax
      exact absurd (by simpa using hy) hmax

/-! ## Past the ends -/

/-- The round is at the end of both lists, or past it. -/
def AtEnd (a b : List α) (d : Nat) (k : Int) : Prop :=
  a.length ≤ reach a b d k ∧ (b.length : Int) ≤ reach a b d k - k

theorem furthest_inside {v : Int → Nat} (hy : k ≤ startAt d v k)
    (h : startAt d v k ≠ furthest a b d v k) :
    furthest a b d v k ≤ a.length ∧ (furthest a b d v k : Int) - k ≤ b.length := by
  have hle := commonPrefix_le (a.drop (startAt d v k)) (b.drop (startAt d v k - k).toNat)
  rw [length_drop, length_drop] at hle
  unfold furthest at h ⊢
  omega

theorem reach_zero (a b : List α) : reach a b 0 0 ≤ a.length ∧ reach a b 0 0 ≤ b.length := by
  have hreach : reach a b 0 0 = commonPrefix a b := by
    simp [reach, furthest, startAt]
  rw [hreach]
  exact commonPrefix_le a b

theorem startAt_eq_reach (hk : OnRound (d + 1) k)
    (h : a.length < reach a b (d + 1) k ∨ (b.length : Int) < reach a b (d + 1) k - k) :
    startAt (d + 1) (reach a b d) k = reach a b (d + 1) k := by
  by_contra hne
  have hinside := furthest_inside (le_startAt hk fun _ h => diagonal_le_reach h) hne
  rw [reach] at h
  omega

theorem reach_past_right (hk : OnRound d k) (h : a.length < reach a b d k) :
    OnRound d (k - 2) ∧ reach a b d k ≤ reach a b d (k - 2) + 1 := by
  induction d generalizing k with
  | zero =>
    rw [onRound_zero] at hk
    subst hk
    exact absurd (reach_zero a b).1 (not_le.mpr h)
  | succ d ih =>
    have hstart := startAt_eq_reach hk (.inl h)
    rcases startAt_cases hk (reach a b d) with ⟨hk', hcase⟩ | ⟨hk', hcase⟩
    · obtain ⟨hk'', hle⟩ := ih hk' (by omega)
      rw [show k + 1 - 2 = k - 2 + 1 by omega] at hk'' hle
      obtain ⟨hround, hreach⟩ := reach_down a b hk''
      exact ⟨hround, by omega⟩
    · rw [show k - 1 = k - 2 + 1 by omega] at hk' hcase
      obtain ⟨hround, hreach⟩ := reach_down a b hk'
      exact ⟨hround, by omega⟩

theorem reach_past_below (hk : OnRound d k) (h : (b.length : Int) < reach a b d k - k) :
    OnRound d (k + 2) ∧ reach a b d k + 1 ≤ reach a b d (k + 2) := by
  induction d generalizing k with
  | zero =>
    rw [onRound_zero] at hk
    subst hk
    have := (reach_zero a b).2
    omega
  | succ d ih =>
    have hstart := startAt_eq_reach hk (.inr h)
    rcases startAt_cases hk (reach a b d) with ⟨hk', hcase⟩ | ⟨hk', hcase⟩
    · rw [show k + 1 = k + 2 - 1 by omega] at hk' hcase
      obtain ⟨hround, hreach⟩ := reach_right a b hk'
      exact ⟨hround, by omega⟩
    · obtain ⟨hk'', hle⟩ := ih hk' (by omega)
      rw [show k - 1 + 2 = k + 2 - 1 by omega] at hk'' hle
      obtain ⟨hround, hreach⟩ := reach_right a b hk''
      exact ⟨hround, by omega⟩

/-- **The first round at the end is at the end itself**, not past it. -/
theorem eq_end_of_reach (hk : OnRound d k) (hend : AtEnd a b d k)
    (hfirst : ∀ d' k', d = d' + 1 → OnRound d' k' → ¬ AtEnd a b d' k') :
    reach a b d k = a.length ∧ k = a.length - b.length := by
  unfold AtEnd at hend hfirst
  cases d with
  | zero =>
    rw [onRound_zero] at hk
    subst hk
    have hle := reach_zero a b
    omega
  | succ d =>
    have hy := le_startAt (a := a) (b := b) hk fun _ h => diagonal_le_reach h
    by_cases hstart : startAt (d + 1) (reach a b d) k = reach a b (d + 1) k
    · rcases startAt_cases hk (reach a b d) with ⟨hk', hcase⟩ | ⟨hk', hcase⟩
      · -- a step down, from the last row
        have hprev := hfirst d (k + 1) rfl hk'
        by_cases hpast : a.length < reach a b d (k + 1)
        · obtain ⟨hk'', hle⟩ := reach_past_right hk' hpast
          have := hfirst d (k + 1 - 2) rfl hk''
          omega
        · omega
      · -- a step right, from the last column
        have hprev := hfirst d (k - 1) rfl hk'
        by_cases hpast : (b.length : Int) < reach a b d (k - 1) - (k - 1)
        · obtain ⟨hk'', hle⟩ := reach_past_below hk' hpast
          have := hfirst d (k - 1 + 2) rfl hk''
          omega
        · omega
    · have hinside := furthest_inside hy hstart
      rw [reach] at hend ⊢
      omega

end Reach

end GitSlice
