import GitSlice.Diff.Hunks

/-! # `MatchLines` with its arrays
`MatchLines`, `myersPairs` and `backtrack` of `internal/diffutil/match.go` with the array `v` over
the diagonals, the windows of it that `trace` keeps, and the slice `match`. An index out of bounds
has no value.

`matchLinesArray_eq`: every call returns, with the matches of `matchLinesWithin`.
`matchLines_shortest` says what they are: equal lines in order, as many as there can be if the lines
between those in common at both ends are within the limit of edits, and else none of these. -/

namespace GitSlice

open List Option

variable {α : Type}

/-! ## The code -/

/-- `l[i]`, if the index is in bounds. -/
def index (l : List α) (i : Int) : Option α := if 0 ≤ i then l[i.toNat]? else none

/-- `l[i] = x`, if the index is in bounds. -/
def store (l : List α) (i : Int) (x : α) : Option (List α) :=
  if 0 ≤ i ∧ i < l.length then some (l.set i.toNat x) else none

/-- Where round `d` starts on diagonal `k`. -/
def startIndex (offset d : Nat) (v : List Nat) (k : Int) : Option Nat :=
  if k = -d then index v (k + 1 + offset)
  else if k = d then (index v (k - 1 + offset)).map (· + 1)
  else do
    let left ← index v (k - 1 + offset)
    let right ← index v (k + 1 + offset)
    return if left < right then right else left + 1

/-- `prevK` of `backtrack`, from the window of round `d - 1`. -/
def prevIndex (d : Nat) (window : List Nat) (k : Int) : Option Int :=
  if k = -(d + 1 : Nat) then some (k + 1)
  else if k = (d + 1 : Nat) then some (k - 1)
  else do
    let left ← index window (k - 1 + d)
    let right ← index window (k + 1 + d)
    return if left < right then k + 1 else k - 1

/-- The loop of `backtrack`; a point outside of the grid has no value. -/
def backtrackArray (trace : List (List Nat)) : Nat → Nat → Nat → Option (List (Nat × Nat))
  | 0, _, _ => some []
  | 1, x, y => some (walkBack 0 0 x y)
  | d + 2, x, y => do
    let window ← index trace d
    let prevK ← prevIndex d window (x - y)
    let prevX ← index window (prevK + d)
    if prevX < prevK then none
    else do
      let pairs ← backtrackArray trace (d + 1) prevX (prevX - prevK).toNat
      return walkBack prevX (prevX - prevK).toNat x y ++ pairs

variable [DecidableEq α]

/-- The loop that follows equal lines; it takes at most as many rounds as `a` has lines. -/
def follow (a b : List α) : Nat → Nat → Int → Option Nat
  | 0, x, _ => some x
  | rounds + 1, x, y =>
    if x < a.length ∧ y < b.length then do
      let l ← a[x]?
      let l' ← index b y
      if l = l' then follow a b rounds (x + 1) (y + 1) else some x
    else some x

/-- How many lines `a` and `b` have in common at the front. -/
def commonLines (a b : List α) : Option Nat := follow a b a.length 0 0

/-- The loop of `myersPairs` over the diagonals. -/
def roundArray (a b : List α) (offset d : Nat) : List Int → List Nat → Option (List Nat × Bool)
  | [], v => some (v, false)
  | k :: ks, v => do
    let start ← startIndex offset d v k
    let x ← follow a b a.length start (start - k)
    let v ← store v (k + offset) x
    if a.length ≤ x ∧ (b.length : Int) ≤ x - k then some (v, true) else roundArray a b offset d ks v

/-- The loop of `myersPairs` over the rounds. -/
def roundsArray (a b : List α) (offset : Nat) :
    Nat → Nat → List Nat → List (List Nat) → Option (Option (List (List Nat)))
  | 0, _, _, _ => some none
  | left + 1, d, v, trace =>
    if offset < d then none
    else do
      let (v, done) ← roundArray a b offset d (diagonals d) v
      let window ← slice v (offset - d) (offset + d + 1)
      if done then some (some (trace ++ [window])) else roundsArray a b offset left (d + 1) v (trace ++ [window])

/-- `myersPairs`. -/
def myersPairsArray (a b : List α) (maxEdits : Nat) : Option (List (Nat × Nat)) :=
  if a = [] ∨ b = [] then some []
  else do
    let limit := min (a.length + b.length) maxEdits
    match ← roundsArray a b (limit + 1) (limit + 1) 0 (List.replicate (2 * limit + 3) 0) [] with
    | some trace => backtrackArray trace trace.length a.length b.length
    | none => some []

/-- `match[j] = i` for each of the pairs. -/
def assignArray (ms : List (Option Nat)) (ps : List (Nat × Nat)) : Option (List (Option Nat)) :=
  ps.foldlM (fun ms p => store ms p.2 (some p.1)) ms

/-- The limit that `maxEdits` stands for. -/
def editLimit (maxEdits : Int) : Nat := if maxEdits ≤ 0 then defaultMaxEdits else maxEdits.toNat

/-- `MatchLines`. -/
def matchLinesArray (old new : List α) (maxEdits : Int) : Option (List (Option Nat)) := do
  let pre ← commonLines old new
  let suf ← commonLines (old.drop pre).reverse (new.drop pre).reverse
  let a ← slice old pre (old.length - suf)
  let b ← slice new pre (new.length - suf)
  let pairs ← myersPairsArray a b (editLimit maxEdits)
  let ms ← assignArray (List.replicate new.length none) ((List.range pre).map fun i => (i, i))
  let ms ← assignArray ms ((List.range suf).map fun i => (old.length - 1 - i, new.length - 1 - i))
  assignArray ms (pairs.map fun p => (pre + p.1, pre + p.2))

/-! ## The array over the diagonals -/

variable {a b : List α} {offset d : Nat} {v : List Nat} {f : Int → Nat} {k : Int}

omit [DecidableEq α] in
theorem index_natCast (l : List α) (i : Nat) : index l i = l[i]? := by simp [index]

/-- The array holds the values of the diagonals. -/
def Shows (offset : Nat) (v : List Nat) (f : Int → Nat) : Prop :=
  v.length = 2 * offset + 1 ∧ ∀ k : Int, -offset ≤ k → k ≤ offset →
    index v (k + offset) = some (f k)

theorem follow_eq {rounds x : Nat} {y : Int} (hy : 0 ≤ y) (hrounds : a.length ≤ x + rounds) :
    follow a b rounds x y = some (x + commonPrefix (a.drop x) (b.drop y.toNat)) := by
  induction rounds generalizing x y with
  | zero =>
    rw [follow, drop_eq_nil_of_le (show a.length ≤ x from hrounds)]
    simp [commonPrefix]
  | succ rounds ih =>
    rw [follow]
    split_ifs with hin
    · obtain ⟨y, rfl⟩ := Int.eq_ofNat_of_zero_le hy
      have hx : x < a.length := hin.1
      have hy' : y < b.length := by omega
      rw [index_natCast, List.getElem?_eq_getElem hx, List.getElem?_eq_getElem hy',
        Int.toNat_natCast, drop_eq_getElem_cons hx, drop_eq_getElem_cons hy', commonPrefix]
      simp only [bind_eq_bind, bind_some]
      split_ifs with heq
      · have hstep := @ih (x + 1) (y + 1) (by omega) (by omega)
        rw [show ((y : Int) + 1).toNat = y + 1 by omega] at hstep
        rw [hstep]
        congr 1
        omega
      · rfl
    · have hempty : a.drop x = [] ∨ b.drop y.toNat = [] := by
        simp only [drop_eq_nil_iff]
        omega
      rcases hempty with hempty | hempty
      · rw [hempty]
        simp [commonPrefix]
      · rw [hempty]
        cases a.drop x <;> simp [commonPrefix]

/-- No round starts left of the first column. -/
theorem ReadyFor.le_startAt (hv : ReadyFor a b d f) (hk : OnRound d k) : k ≤ startAt d f k := by
  cases d with
  | zero =>
    rw [onRound_zero] at hk
    omega
  | succ d =>
    rw [startAt_congr hk hv]
    exact GitSlice.le_startAt hk fun _ h => diagonal_le_reach h

/-- The windows of the trace hold the values of the rounds. -/
def Windows (windows : List (List Nat)) (values : List (Int → Nat)) : Prop :=
  windows.length = values.length ∧ ∀ (e : Nat) w f, windows[e]? = some w → values[e]? = some f →
    ∀ k : Int, -e ≤ k → k ≤ e → index w (k + e) = some (f k)

variable {values : List (Int → Nat)} {windows : List (List Nat)}

theorem Windows.append {w : List Nat} (h : Windows windows values)
    (hw : ∀ k : Int, -values.length ≤ k → k ≤ values.length →
      index w (k + values.length) = some (f k)) :
    Windows (windows ++ [w]) (values ++ [f]) := by
  obtain ⟨hlen, hold⟩ := h
  refine ⟨by simp [hlen], fun e w' f' hw' hf' => ?_⟩
  rcases Nat.lt_trichotomy e values.length with he | he | he
  · rw [List.getElem?_append_left (by omega)] at hw' hf'
    exact hold e w' f' hw' hf'
  · subst he
    rw [← hlen, List.getElem?_concat_length, Option.some.injEq] at hw'
    rw [List.getElem?_concat_length, Option.some.injEq] at hf'
    subst hw' hf'
    exact hw
  · rw [List.getElem?_eq_none (by simp; omega)] at hf'
    cases hf'

section

variable (h : Shows offset v f)
include h

theorem Shows.store (hk : -offset ≤ k ∧ k ≤ offset) (x : Nat) :
    ∃ v', store v (k + offset) x = some v' ∧ Shows offset v' (Function.update f k x) := by
  obtain ⟨hlen, hget⟩ := h
  refine ⟨v.set (k + offset).toNat x, if_pos (by omega), by simpa using hlen,
    fun k' hlow hhigh => ?_⟩
  have hold := hget k' hlow hhigh
  simp only [index, show (0 : Int) ≤ k' + offset by omega, if_true] at hold ⊢
  by_cases heq : k' = k
  · subst heq
    rw [List.getElem?_set_self (by omega), Function.update_self]
  · rw [List.getElem?_set_ne (by omega), Function.update_of_ne heq, hold]

theorem startIndex_eq (hd : d < offset) (hk : OnRound d k) :
    startIndex offset d v k = some (startAt d f k) := by
  obtain ⟨hlow, hhigh, -⟩ := hk
  unfold startIndex startAt
  by_cases hfirst : k = -d
  · rw [if_pos hfirst, if_pos (.inl hfirst), h.2 (k + 1) (by omega) (by omega)]
  · by_cases hlast : k = d
    · rw [if_neg hfirst, if_pos hlast, if_neg (by omega), h.2 (k - 1) (by omega) (by omega)]
      rfl
    · rw [h.2 (k - 1) (by omega) (by omega), h.2 (k + 1) (by omega) (by omega)]
      simp [hfirst, hlast]

/-- **A round** on the array takes the values of the round on the diagonals. -/
theorem roundArray_eq {ks : List Int} (hd : d < offset) (hks : ∀ k ∈ ks, OnRound d k)
    (hv : ReadyFor a b d f) :
    ∃ v', roundArray a b offset d ks v = some (v', (myersRound a b d ks f).2) ∧
      Shows offset v' (myersRound a b d ks f).1 := by
  induction ks generalizing v f with
  | nil => exact ⟨v, rfl, h⟩
  | cons k ks ih =>
    have hk := hks k mem_cons_self
    have hfollow : follow a b a.length (startAt d f k) (startAt d f k - k) =
        some (furthest a b d f k) :=
      follow_eq (by have := hv.le_startAt hk; omega) (by omega)
    obtain ⟨v₁, hstore, hshows⟩ := h.store (k := k) (by unfold OnRound at hk; omega) (furthest a b d f k)
    rw [roundArray, startIndex_eq h hd hk]
    simp only [bind_eq_bind, bind_some, hfollow, hstore, myersRound]
    split_ifs
    · exact ⟨v₁, rfl, hshows⟩
    · exact ih hshows (fun k' hk' => hks k' (mem_cons_of_mem k hk')) (hv.update hk _)

theorem Shows.window (hd : d ≤ offset) :
    ∃ w, slice v (offset - d) (offset + d + 1) = some w ∧
      ∀ k : Int, -d ≤ k → k ≤ d → index w (k + d) = some (f k) := by
  have hlen := h.1
  refine ⟨_, slice_eq (by omega) (by omega), fun k hlow hhigh => ?_⟩
  have hget := h.2 k (by omega) (by omega)
  simp only [index, span, show (0 : Int) ≤ k + d by omega, show (0 : Int) ≤ k + offset by omega,
    if_true] at hget ⊢
  rw [List.getElem?_take_of_lt (by omega), List.getElem?_drop, ← hget]
  congr 1
  omega

/-- **The rounds** on the array end as on the diagonals, with windows of the same values. -/
theorem roundsArray_eq {left : Nat} {trace : List (List Nat)} (hleft : d + left ≤ offset)
    (hv : ReadyFor a b d f) (hlen : values.length = d) (hw : Windows trace values) :
    (myersRounds a b left d f values = none ∧ roundsArray a b offset left d v trace = some none) ∨
      ∃ trace' values', myersRounds a b left d f values = some values' ∧
        roundsArray a b offset left d v trace = some (some trace') ∧ Windows trace' values' := by
  induction left generalizing d v f trace values with
  | zero => exact .inl ⟨rfl, rfl⟩
  | succ left ih =>
    have hks : ∀ k ∈ diagonals d, OnRound d k := fun k hk => mem_diagonals.mp hk
    obtain ⟨v', hround, hshows⟩ := roundArray_eq h (by omega) hks hv
    obtain ⟨window, hslice, hwindow⟩ := hshows.window (show d ≤ offset by omega)
    have hnext := hw.append (by rwa [hlen])
    have hspec := (myersRound_spec hks hv).2
    rw [myersRounds, roundsArray, if_neg (by omega), hround]
    simp only [bind_eq_bind, bind_some, hslice]
    cases hrun : myersRound a b d (diagonals d) f with
    | mk f' done =>
      rw [hrun] at hshows hnext hspec
      cases done with
      | true => exact .inr ⟨_, _, rfl, rfl, hnext⟩
      | false =>
        have hready : ReadyFor a b (d + 1) f' :=
          fun k hk => (hspec rfl).2 k (.inl (mem_diagonals.mpr hk))
        exact ih hshows (by omega) hready (by simp [hlen]) hnext

end

/-! ## The way back, and the matches -/

/-- **The way back** through the windows is the way back through the values. -/
theorem backtrackArray_eq {x y : Nat} (hw : Windows windows values) (hd : d < values.length)
    (htrace : TraceOf a b d values) (hk : OnRound d (x - y)) :
    backtrackArray windows (d + 1) x y = some (backtrackFrom values (d + 1) x y) := by
  induction d generalizing x y with
  | zero => rfl
  | succ d ih =>
    have hget : values[d]? = some (values.getD d fun _ => 0) := by
      rw [getD_eq_getElem _ _ (by omega), List.getElem?_eq_getElem (by omega)]
    obtain ⟨w, hwindow⟩ : ∃ w, windows[d]? = some w :=
      ⟨_, List.getElem?_eq_getElem (by have := hw.1; omega)⟩
    have hread := hw.2 d _ _ hwindow hget
    have hv : ReadyFor a b (d + 1) (values.getD d fun _ => 0) :=
      fun k hk => htrace d k (by omega) hk
    obtain ⟨hround, -⟩ := prevDiagonal_spec hv hk
    have hprev : prevIndex d w (x - y) =
        some (prevDiagonal (d + 1) (values.getD d fun _ => 0) (x - y)) := by
      obtain ⟨hlow, hhigh, hparity⟩ := hk
      unfold prevIndex prevDiagonal
      by_cases hfirst : (x - y : Int) = -(d + 1 : Nat)
      · rw [if_pos hfirst, if_pos (.inl hfirst)]
      · by_cases hlast : (x - y : Int) = (d + 1 : Nat)
        · rw [if_neg hfirst, if_pos hlast, if_neg (by omega)]
        · rw [hread _ (by omega) (by omega), hread _ (by omega) (by omega)]
          simp only [hfirst, hlast, false_or, ne_eq, not_false_eq_true, true_and]
          rfl
    rw [backtrackArray, backtrackFrom, index_natCast, hwindow]
    simp only [bind_eq_bind, bind_some, hprev]
    generalize prevDiagonal (d + 1) (values.getD d fun _ => 0) (x - y) = prevK at hround ⊢
    have hprevX := hv prevK hround
    have hle := diagonal_le_reach (a := a) (b := b) hround
    obtain ⟨hlow, hhigh, -⟩ := id hround
    rw [hread prevK hlow hhigh, bind_some, if_neg (by omega)]
    generalize (values.getD d fun _ => 0) prevK = prevX at hprevX ⊢
    rw [ih (by omega) (fun e k he => htrace e k (by omega)) (by convert hround using 1; omega)]
    rfl

theorem myersPairsArray_eq (a b : List α) (maxEdits : Nat) :
    myersPairsArray a b maxEdits = some (myersPairs a b maxEdits) := by
  unfold myersPairsArray myersPairs
  split_ifs
  · rfl
  · dsimp only
    generalize min (a.length + b.length) maxEdits = limit
    have hshows : Shows (limit + 1) (List.replicate (2 * limit + 3) 0) fun _ => 0 := by
      refine ⟨by simp; omega, fun k hlow hhigh => ?_⟩
      rw [index, if_pos (by omega), List.getElem?_replicate, if_pos (by omega)]
    have hready : ReadyFor a b 0 fun _ => 0 := rfl
    have hempty : Windows [] [] := ⟨rfl, fun e w f hw => by simp at hw⟩
    rcases roundsArray_eq hshows (show 0 + (limit + 1) ≤ limit + 1 by omega) hready rfl hempty with ⟨hnone, harray⟩ |
      ⟨windows, values, hsome, harray, hwindows⟩
    · rw [hnone, harray]
      rfl
    · rcases myersRounds_start a b limit with ⟨hnone, -⟩ | ⟨trace, last, hstart, -, hlen, htrace, hk, -, -⟩
      · rw [hsome] at hnone
        cases hnone
      obtain rfl : values = trace := Option.some.inj (hsome.symm.trans hstart)
      rw [hsome, harray, bind_eq_bind, bind_some]
      dsimp only
      rw [hwindows.1, backtrack, hlen]
      exact backtrackArray_eq hwindows (by omega) htrace hk

omit [DecidableEq α] in
theorem assignArray_eq {ms : List (Option Nat)} {ps : List (Nat × Nat)}
    (h : ∀ p ∈ ps, p.2 < ms.length) :
    assignArray ms ps = some (assign ms ps) ∧ (assign ms ps).length = ms.length := by
  induction ps generalizing ms with
  | nil => exact ⟨rfl, rfl⟩
  | cons p ps ih =>
    rw [forall_mem_cons] at h
    have hstore : store ms p.2 (some p.1) = some (ms.set p.2 (some p.1)) := if_pos (by omega)
    have hrest := @ih (ms.set p.2 (some p.1)) (by simpa using h.2)
    rw [length_set] at hrest
    rw [assignArray, foldlM_cons, hstore]
    exact hrest

/-- **No index is out of bounds**: every call of `MatchLines` returns the matches. -/
theorem matchLinesArray_eq (old new : List α) (maxEdits : Int) :
    matchLinesArray old new maxEdits = some (matchLinesWithin (editLimit maxEdits) old new) := by
  have hpre := commonPrefix_le old new
  have hcommon : ∀ a b : List α, commonLines a b = some (commonPrefix a b) := by
    intro a b
    rw [commonLines, follow_eq (le_refl 0) (by omega)]
    simp
  unfold matchLinesArray matchLinesWithin
  simp only [hcommon, bind_eq_bind, bind_some]
  generalize commonPrefix old new = pre at hpre ⊢
  have hsuf := commonPrefix_le (old.drop pre).reverse (new.drop pre).reverse
  simp only [length_reverse, length_drop] at hsuf
  generalize commonPrefix (old.drop pre).reverse (new.drop pre).reverse = suf at hsuf ⊢
  have hslice : ∀ l : List α, suf ≤ l.length - pre → pre ≤ l.length →
      slice l pre (l.length - suf) = some ((l.drop pre).take ((l.drop pre).length - suf)) := by
    intro l hl hle
    rw [slice_eq (by omega) (by omega), span, length_drop,
      show l.length - suf - pre = l.length - pre - suf by omega]
  rw [hslice old hsuf.1 hpre.1, hslice new hsuf.2 hpre.2]
  simp only [bind_some, myersPairsArray_eq]
  have hpairs := (myersPairs_spec ((old.drop pre).take ((old.drop pre).length - suf))
    ((new.drop pre).take ((new.drop pre).length - suf)) (editLimit maxEdits)).1.before
  simp only [length_take, length_drop] at hpairs ⊢
  generalize myersPairs (α := α) _ _ (editLimit maxEdits) = pairs at hpairs ⊢
  have hfront : ∀ p ∈ (List.range pre).map (fun i => (i, i)), p.2 <
      (List.replicate new.length (none : Option Nat)).length := by
    simp
    omega
  obtain ⟨h₁, hlen₁⟩ := assignArray_eq hfront
  rw [length_replicate] at hlen₁
  rw [h₁, bind_some]
  generalize assign (List.replicate new.length none) _ = ms at hlen₁ ⊢
  have hends : ∀ p ∈ (List.range suf).map (fun i => (old.length - 1 - i, new.length - 1 - i)), p.2 <
      ms.length := by
    simp
    omega
  obtain ⟨h₂, hlen₂⟩ := assignArray_eq hends
  rw [h₂]
  refine (assignArray_eq fun p hp => ?_).1
  obtain ⟨q, hq, rfl⟩ := mem_map.mp hp
  have := hpairs q hq
  omega

/-! ## What the matches are -/

section Aligned

omit [DecidableEq α]

variable {pos : Nat} {ms : List (Option Nat)}

section

variable (h : Aligned pos a b ms)
include h

theorem Aligned.length_eq : ms.length = b.length := by
  induction h with
  | done => rfl
  | added l _ ih | kept d l _ ih => simp [ih]

theorem Aligned.equal {i j : Nat} (hi : ms[j]? = some (some i)) :
    pos ≤ i ∧ ∃ l, a[i - pos]? = some l ∧ b[j]? = some l := by
  induction h generalizing j with
  | done => simp at hi
  | added l _ ih =>
    cases j with
    | zero => simp at hi
    | succ j => exact ih hi
  | @kept pos a b ms d l _ ih =>
    cases j with
    | zero =>
      obtain rfl : pos + d.length = i := by simpa using hi
      exact ⟨by omega, l, by simp, rfl⟩
    | succ j =>
      obtain ⟨hle, l', ha, hb⟩ := ih hi
      refine ⟨by omega, l', ?_, hb⟩
      rw [List.getElem?_append_right (by omega),
        show i - pos - d.length = i - (pos + d.length + 1) + 1 by omega]
      exact ha

theorem Aligned.increasing : (ms.filterMap id).Pairwise (· < ·) := by
  induction h with
  | done => exact .nil
  | added l _ ih => exact ih
  | @kept pos a b ms d l h ih =>
    refine pairwise_cons.mpr ⟨fun i hi => ?_, ih⟩
    obtain ⟨o, hmem, ho⟩ := mem_filterMap.mp hi
    obtain ⟨j, hj⟩ := mem_iff_getElem?.mp hmem
    have hle := (h.equal (hj.trans (congrArg some ho))).1
    omega

theorem Aligned.common :
    ∃ l : List α, l.Sublist a ∧ l.Sublist b ∧ l.length = keptCount ms := by
  induction h with
  | done pos a => exact ⟨[], nil_sublist a, nil_sublist _, rfl⟩
  | added l _ ih =>
    obtain ⟨k, ha, hb, hlen⟩ := ih
    exact ⟨k, ha, hb.cons l, hlen⟩
  | kept d l _ ih =>
    obtain ⟨k, ha, hb, hlen⟩ := ih
    refine ⟨l :: k, (ha.cons_cons l).trans (sublist_append_right d _), hb.cons_cons l, ?_⟩
    rw [keptCount_some, length_cons, hlen]

end

end Aligned

theorem myersPairs_limit (a b : List α) (maxEdits : Nat) :
    ((∃ d ≤ min maxEdits (a.length + b.length), EditPath a b 0 0 d a.length b.length) →
      ∀ l : List α, l.Sublist a → l.Sublist b → l.length ≤ (myersPairs a b maxEdits).length) ∧
    ((¬ ∃ d ≤ min maxEdits (a.length + b.length), EditPath a b 0 0 d a.length b.length) →
      myersPairs a b maxEdits = []) := by
  by_cases hempty : a = [] ∨ b = []
  · refine ⟨fun _ => (myersPairs_spec a b maxEdits).2.resolve_left fun h => ?_,
      fun _ => if_pos hempty⟩
    exact hempty.elim h.2.1 h.2.2
  · rw [myersPairs, if_neg hempty]
    rcases myersRounds_start a b (min (a.length + b.length) maxEdits) with ⟨hnone, hnot⟩ | ⟨trace, -, hsome, -⟩
    · rw [hnone]
      refine ⟨?_, fun _ => rfl⟩
      rintro ⟨d, hd, hpath⟩
      obtain ⟨hround, hle⟩ := le_reach hpath
      exact absurd ⟨hle, by omega⟩ (hnot d _ (by omega) hround)
    · rw [hsome]
      obtain ⟨hback, ⟨last, hlast, hcost⟩, hlongest⟩ := backtrack_spec hsome
      refine ⟨fun _ => hlongest, absurd ?_⟩
      -- the lines the pairs leave are the edits of a path
      obtain ⟨haligned, hcount⟩ := hback.aligned (le_refl _) (le_refl _) 0
      rw [take_length, take_length] at haligned
      obtain ⟨l, ha, hb, hlen⟩ := haligned.common
      obtain ⟨d, hpath, hd⟩ := EditPath.of_sublists ha hb (Nat.zero_le _) (Nat.zero_le _)
      exact ⟨d, by omega, hpath⟩

/-- **`MatchLines` is a shortest diff within its limit of edits**, which is 4000 for a limit that is
not positive. No index is out of bounds. -/
theorem matchLines_shortest (old new : List α) (maxEdits : Int) :
    ∃ ms, matchLinesArray old new maxEdits = some ms ∧ ms.length = new.length ∧
      (∀ i j : Nat, ms[j]? = some (some i) → ∃ l, old[i]? = some l ∧ new[j]? = some l) ∧
      (ms.filterMap id).Pairwise (· < ·) ∧
      ∃ front a b back, old = front ++ (a ++ back) ∧ new = front ++ (b ++ back) ∧
        commonPrefix old new = front.length ∧
        commonPrefix (a ++ back).reverse (b ++ back).reverse = back.length ∧
        ((∃ d ≤ min (editLimit maxEdits) (a.length + b.length), EditPath a b 0 0 d a.length b.length) →
          (∃ l : List α, l.Sublist old ∧ l.Sublist new ∧ l.length = keptCount ms) ∧
            ∀ l : List α, l.Sublist old → l.Sublist new → l.length ≤ keptCount ms) ∧
        ((¬ ∃ d ≤ min (editLimit maxEdits) (a.length + b.length), EditPath a b 0 0 d a.length b.length) →
          ms = keptRun 0 front.length ++
            (List.replicate b.length none ++ keptRun (front.length + a.length) back.length)) := by
  obtain ⟨front, a₀, b₀, hold, hnew, hfront, -⟩ := exists_front old new
  obtain ⟨a, b, back, rfl, rfl, hback⟩ := exists_back a₀ b₀
  obtain ⟨haligned, hcount⟩ := aligned_matchLines hold hnew hfront hback (editLimit maxEdits)
  obtain ⟨hwithin, hbeyond⟩ := myersPairs_limit a b (editLimit maxEdits)
  refine ⟨_, matchLinesArray_eq old new maxEdits, haligned.length_eq,
    fun i j hi => (haligned.equal hi).2,
    haligned.increasing, front, a, b, back, hold, hnew, hfront, hback, ?_, ?_⟩
  · intro hpath
    refine ⟨haligned.common, fun l hl hl' => ?_⟩
    rw [hold] at hl
    rw [hnew] at hl'
    obtain ⟨l', ha, hb, hle⟩ := exists_sublist_between hl hl'
    have := hwithin hpath l' ha hb
    omega
  · intro hno
    rw [matchLines_eq hold hnew hfront hback, hbeyond hno]
    rfl

/-- With the limit 0, lines are matched that no path without edits keeps. -/
theorem matchLines_zero : matchLinesArray [1, 2, 3] [4, 2, 5] 0 = some [none, some 1, none] ∧
    commonPrefix [1, 2, 3] [4, 2, 5] = 0 ∧ commonPrefix [3, 2, 1] [5, 2, 4] = 0 ∧
    ¬ ∃ d ≤ min 0 6, EditPath [1, 2, 3] [4, 2, 5] 0 0 d 3 3 := by
  refine ⟨by decide +kernel, rfl, rfl, ?_⟩
  rintro ⟨d, hd, hpath⟩
  obtain rfl : d = 0 := by omega
  cases hpath with
  | keep _ hx hy =>
    cases hx
    cases hy

end GitSlice
