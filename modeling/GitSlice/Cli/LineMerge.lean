import GitSlice.Diff.Hunks
import GitSlice.Diff.Lines

/-! # The line merge of a workspace
`internal/cli/line_merge.go`: the changes of two texts to their base are found by a longest common
subsequence of lines and put together one after the other. Changes that touch are both made; changes
that overlap, and two insertions at one place, are a conflict unless they are equal.

`mergeTextLines_spec` says what a clean merge is: the lines of the base with the changes of both
sides made, the same whichever side is called local. The lines are joined as they are, so a line
without a newline that one side has last runs into what the other side adds behind the end of the
base; that is the only case in which the lines of the result are not those of the merge. -/

namespace GitSlice

open List Option

namespace LineMerge

variable {α : Type} [DecidableEq α]

/-! ## The code -/

/-- A line of a diff. -/
inductive LineDiffOp (α : Type)
  /-- `=`. -/
  | keep (line : α)
  /-- `-`. -/
  | delete (line : α)
  /-- `+`. -/
  | insert (line : α)

/-- A row of the table of `lcsLineDiff`, for a line of the first list, from the row below it. -/
def dpRow (a : α) : List α → List Nat → List Nat
  | [], _ => [0]
  | b :: bs, below =>
    let rest := dpRow a bs below.tail
    (if a = b then below.tail.headD 0 + 1
      else if rest.headD 0 ≤ below.headD 0 then below.headD 0 else rest.headD 0) :: rest

/-- The first row of the table for two lists. -/
def dpRows : List α → List α → List Nat
  | [], bs => List.replicate (bs.length + 1) 0
  | a :: as, bs => dpRow a bs (dpRows as bs)

/-- `dp` where the rest of the lists are these. -/
def dp (as bs : List α) : Nat := (dpRows as bs).headD 0

/-- The walk of `lcsLineDiff` through the table. -/
def walk : Nat → List α → List α → List (LineDiffOp α)
  | 0, _, _ => []
  | _ + 1, [], [] => []
  | n + 1, a :: as, [] => .delete a :: walk n as []
  | n + 1, [], b :: bs => .insert b :: walk n [] bs
  | n + 1, a :: as, b :: bs =>
    if a = b then .keep a :: walk n as bs
    else if dp (a :: as) bs ≤ dp as (b :: bs) then .delete a :: walk n as (b :: bs)
    else .insert b :: walk n (a :: as) bs

/-- The diff along a longest common subsequence. -/
def lcsLineDiff (a b : List α) : List (LineDiffOp α) := walk (a.length + b.length) a b

/-- The loop of `diffLineChanges`, at a line of the base and with the change that is active. -/
def collect : Nat → Option (LineHunk α) → List (LineDiffOp α) → List (LineHunk α)
  | _, none, [] => []
  | baseIndex, some c, [] => [{ c with stop := baseIndex }]
  | baseIndex, none, .keep _ :: ops => collect (baseIndex + 1) none ops
  | baseIndex, some c, .keep _ :: ops => { c with stop := baseIndex } :: collect (baseIndex + 1) none ops
  | baseIndex, active, .delete _ :: ops => collect (baseIndex + 1) (some (active.getD ⟨baseIndex, 0, []⟩)) ops
  | baseIndex, active, .insert line :: ops =>
    let c := active.getD ⟨baseIndex, 0, []⟩
    collect baseIndex (some { c with lines := c.lines ++ [line] }) ops

/-- The runs of deleted and inserted lines. -/
def diffLineChanges (base target : List α) : List (LineHunk α) :=
  collect 0 none (lcsLineDiff base target)

/-- Two insertions at one place are not in order. -/
def lineChangeBefore (a b : LineHunk α) : Bool :=
  a.stop < b.start || (a.stop = b.start && !(a.start = a.stop && b.start = b.stop))

/-- What the loop of `mergeLineChanges` does next. -/
inductive Next (α : Type)
  /-- No change is left. -/
  | done
  /-- The next changes cannot both be made. -/
  | conflict
  /-- A change is made, and these are left. -/
  | take (c : LineHunk α) (ls rs : List (LineHunk α))

/-- The cases of the loop of `mergeLineChanges`; `sameLineChange` is equality. -/
def next : List (LineHunk α) → List (LineHunk α) → Next α
  | [], [] => .done
  | [], r :: rs => .take r [] rs
  | l :: ls, [] => .take l ls []
  | l :: ls, r :: rs =>
    if l = r then .take l ls rs
    else if lineChangeBefore l r then .take l ls (r :: rs)
    else if lineChangeBefore r l then .take r (l :: ls) rs
    else .conflict

/-- The loop of `mergeLineChanges`, of at most as many turns as there are changes. -/
def mergeLoop (base : List α) :
    Nat → List (LineHunk α) → List (LineHunk α) → Nat → List α → Option (List α)
  | 0, _, _, baseIndex, out => some (out ++ span base baseIndex base.length)
  | n + 1, ls, rs, baseIndex, out =>
    match next ls rs with
    | .done => some (out ++ span base baseIndex base.length)
    | .conflict => none
    | .take c ls rs =>
      if c.start < baseIndex then none
      else mergeLoop base n ls rs c.stop (out ++ span base baseIndex c.start ++ c.lines)

/-- No result is a conflict. -/
def mergeLineChanges (base : List α) (localChanges remoteChanges : List (LineHunk α)) :
    Option (List α) :=
  mergeLoop base (localChanges.length + remoteChanges.length) localChanges remoteChanges 0 []

/-- `mergeTextLines`; `splitMergeLines` is the same function as `splitLines`. -/
def mergeTextLines (base localText remote : Bytes) : Option Bytes :=
  if localText = remote then some localText
  else if base = localText then some remote
  else if base = remote then some localText
  else
    (mergeLineChanges (splitLines base) (diffLineChanges (splitLines base) (splitLines localText))
      (diffLineChanges (splitLines base) (splitLines remote))).map List.flatten

/-! ## The changes of one side -/

namespace LineDiffOp

/-- The lines of the base in some operations. -/
def sources : List (LineDiffOp α) → List α
  | [] => []
  | .keep line :: ops | .delete line :: ops => line :: sources ops
  | .insert _ :: ops => sources ops

/-- The lines of the target in some operations. -/
def targets : List (LineDiffOp α) → List α
  | [] => []
  | .keep line :: ops | .insert line :: ops => line :: targets ops
  | .delete _ :: ops => targets ops

end LineDiffOp

open LineDiffOp (sources targets)

variable {n : Nat}

theorem walk_spec {a b : List α} (hn : a.length + b.length ≤ n) :
    sources (walk n a b) = a ∧ targets (walk n a b) = b := by
  fun_induction walk n a b with
  | case1 a b =>
    have ha : a = [] := length_eq_zero_iff.mp (by omega)
    have hb : b = [] := length_eq_zero_iff.mp (by omega)
    exact ⟨ha.symm, hb.symm⟩
  | case2 => exact ⟨rfl, rfl⟩
  | case3 n a as ih | case6 n a as b bs hne hle ih =>
    obtain ⟨hs, ht⟩ := ih (by simp only [length_cons] at hn ⊢; omega)
    exact ⟨congrArg (a :: ·) hs, ht⟩
  | case4 n b bs ih | case7 n a as b bs hne hle ih =>
    obtain ⟨hs, ht⟩ := ih (by simp only [length_cons] at hn ⊢; omega)
    exact ⟨hs, congrArg (b :: ·) ht⟩
  | case5 n as a bs ih =>
    obtain ⟨hs, ht⟩ := ih (by simp only [length_cons] at hn ⊢; omega)
    exact ⟨congrArg (a :: ·) hs, congrArg (a :: ·) ht⟩

theorem collect_walk_self (n : Nat) (a : List α) (k : Nat) : collect k none (walk n a a) = [] := by
  induction n generalizing a k with
  | zero => rfl
  | succ n ih =>
    cases a with
    | nil => rfl
    | cons a as =>
      rw [walk, if_pos rfl]
      exact ih as (k + 1)

variable {base : List α}
omit [DecidableEq α] in
theorem span_cons {k : Nat} {line : α} {rest : List α}
    (h : span base k base.length = line :: rest) :
    k + 1 ≤ base.length ∧ span base k (k + 1) = [line] ∧ span base (k + 1) base.length = rest := by
  have hlen := congrArg List.length h
  rw [length_span le_rfl, length_cons] at hlen
  have hlt : k + 1 ≤ base.length := by omega
  have hcut := span_append_span base (Nat.le_succ k) hlt
  have hone : (span base k (k + 1)).length = 1 := by
    rw [length_span hlt]
    omega
  obtain ⟨x, hx⟩ := length_eq_one_iff.mp hone
  rw [h, hx] at hcut
  obtain ⟨rfl, hrest⟩ := cons_eq_cons.mp hcut
  exact ⟨hlt, hx, hrest⟩

omit [DecidableEq α] in
theorem eq_length_of_span_nil {k : Nat} (hk : k ≤ base.length)
    (h : span base k base.length = []) : k = base.length := by
  have := congrArg List.length h
  rw [length_span le_rfl, length_nil] at this
  omega

/-- Where the active change starts. -/
def activeStart (k : Nat) (active : Option (LineHunk α)) : Nat := (active.map LineHunk.start).getD k

/-- The lines of the active change. -/
def activeLines (active : Option (LineHunk α)) : List α := (active.map LineHunk.lines).getD []

omit [DecidableEq α] in
theorem collect_spec {ops : List (LineDiffOp α)} {k i : Nat} {active : Option (LineHunk α)}
    (hk : k ≤ base.length) (hops : span base k base.length = sources ops)
    (hi : i ≤ activeStart k active) (hactive : activeStart k active ≤ k)
    (hchange : ∀ c ∈ active, c.start < k ∨ c.lines ≠ []) :
    Placed base i (collect k active ops) ∧ patched base i base.length (collect k active ops) =
      span base i (activeStart k active) ++ activeLines active ++ targets ops := by
  induction ops generalizing k i active with
  | nil =>
    have hend := eq_length_of_span_nil hk hops
    cases active with
    | none => exact ⟨Placed.nil base i, by simp [collect, patched, activeStart, activeLines, targets, hend]⟩
    | some c =>
      exact ⟨(Placed.nil base (k + 1)).cons ⟨hi, hactive, hk⟩ (hchange c rfl),
        by simp [collect, patched, activeStart, activeLines, targets, hend]⟩
  | cons op ops ih =>
    cases op with
    | keep line =>
      obtain ⟨hlt, hline, hrest⟩ := span_cons hops
      cases active with
      | none =>
        have hi : i ≤ k := hi
        obtain ⟨hplaced, hmade⟩ := @ih (k + 1) i none hlt hrest (show i ≤ k + 1 by omega) le_rfl (by simp)
        refine ⟨hplaced, ?_⟩
        simp only [collect, hmade, activeStart, activeLines, targets, map_none, getD_none]
        rw [← span_append_span base hi (Nat.le_succ k), hline]
        simp
      | some c =>
        obtain ⟨hplaced, hmade⟩ := @ih (k + 1) (k + 1) none hlt hrest le_rfl le_rfl (by simp)
        refine ⟨hplaced.cons ⟨hi, hactive, hk⟩ (hchange c rfl), ?_⟩
        rw [collect, patched, patched_skip base (Nat.le_succ k) hlt fun h hh => (hplaced.bounds h hh).1, hmade, hline]
        simp [activeStart, activeLines, targets]
    | delete line =>
      obtain ⟨hlt, -, hrest⟩ := span_cons hops
      cases active with
      | none =>
        exact @ih (k + 1) i (some ⟨k, 0, []⟩) hlt hrest hi (show k ≤ k + 1 by omega) (by simp)
      | some c =>
        have hactive : c.start ≤ k := hactive
        refine @ih (k + 1) i (some c) hlt hrest hi (show c.start ≤ k + 1 by omega) ?_
        rintro c' ⟨⟩
        exact .inl (by omega)
    | insert line =>
      cases active with
      | none =>
        have hnext := @ih k i (some ⟨k, 0, [line]⟩) hk hops hi le_rfl (by simp)
        simpa [collect, activeStart, activeLines, targets] using hnext
      | some c =>
        have hnext := @ih k i (some { c with lines := c.lines ++ [line] }) hk hops hi hactive (by simp)
        simpa [collect, activeStart, activeLines, targets] using hnext

/-- **The changes of a text** are in order and make it of its base. -/
theorem diffLineChanges_spec (base target : List α) : Placed base 0 (diffLineChanges base target) ∧
    patched base 0 base.length (diffLineChanges base target) = target := by
  obtain ⟨hsources, htargets⟩ := walk_spec (le_refl (base.length + target.length))
  have hops : span base 0 base.length = sources (lcsLineDiff base target) := by
    rw [span_all]
    exact hsources.symm
  obtain ⟨hplaced, hmade⟩ := @collect_spec α base _ 0 0 none (Nat.zero_le _) hops le_rfl le_rfl (by simp)
  exact ⟨hplaced, hmade.trans htargets⟩

/-! ## The changes of both sides -/

/-- The changes of two sides in the order in which they are made. -/
inductive Interleaved : List (LineHunk α) → List (LineHunk α) → List (LineHunk α) → Prop
  | done : Interleaved [] [] []
  | take {ls rs ls' rs' cs : List (LineHunk α)} {c : LineHunk α} (h : next ls rs = .take c ls' rs')
      (hrest : Interleaved ls' rs' cs) : Interleaved ls rs (c :: cs)

variable {ls rs : List (LineHunk α)}

theorem next_done (h : next ls rs = .done) : ls = [] ∧ rs = [] := by
  match ls, rs with
  | [], [] => exact ⟨rfl, rfl⟩
  | [], r :: rs => cases h
  | l :: ls, [] => cases h
  | l :: ls, r :: rs =>
    rw [next] at h
    split_ifs at h

/-- What a change is before: everything behind it on its side, and on the other side when it is
before the first change there. -/
def Ahead (c : LineHunk α) (cs : List (LineHunk α)) : Prop :=
  ∀ x ∈ cs, c.stop ≤ x.start ∧ c.start < x.stop

variable {pos : Nat} {c : LineHunk α} {cs : List (LineHunk α)}
omit [DecidableEq α] in
/-- A change is before those behind it on its side. -/
theorem ahead_tail (hp : Placed base pos (c :: cs)) : Ahead c cs := by
  intro x hx
  have hlt := (pairwise_cons.mp hp.apart).1 x hx
  have hc := hp.bounds c mem_cons_self
  have hbx := hp.bounds x (mem_cons_of_mem c hx)
  omega

omit [DecidableEq α] in
/-- A change that is before the first one of the other side is before all of them. -/
theorem ahead_other {d : LineHunk α} (hp : Placed base pos (d :: cs)) (hc : c.start ≤ c.stop)
    (h : lineChangeBefore c d = true) : Ahead c (d :: cs) := by
  have hd := hp.bounds d mem_cons_self
  have hle : c.stop ≤ d.start ∧ c.start < d.stop := by
    simp only [lineChangeBefore, Bool.or_eq_true, Bool.and_eq_true, decide_eq_true_eq,
      Bool.not_eq_true', Bool.and_eq_false_iff, decide_eq_false_iff_not] at h
    omega
  intro x hx
  rcases mem_cons.mp hx with rfl | hx
  · exact hle
  · have hlt := (pairwise_cons.mp hp.apart).1 x hx
    have hbx := hp.bounds x (mem_cons_of_mem d hx)
    omega

variable {pos' : Nat}

theorem next_take {ls' rs' : List (LineHunk α)} (hl : Placed base pos ls)
    (hr : Placed base pos' rs) (h : next ls rs = .take c ls' rs') :
    (∀ x, x ∈ ls ∨ x ∈ rs ↔ x = c ∨ x ∈ ls' ∨ x ∈ rs') ∧ Ahead c ls' ∧ Ahead c rs' ∧
      ls'.length + rs'.length < ls.length + rs.length ∧ ls'.Sublist ls ∧ rs'.Sublist rs := by
  match ls, rs with
  | [], [] => cases h
  | [], r :: rs =>
    cases h
    exact ⟨by simp, by simp [Ahead], ahead_tail hr, by simp, List.Sublist.refl _,
      sublist_cons_self _ _⟩
  | l :: ls, [] =>
    cases h
    exact ⟨by simp, ahead_tail hl, by simp [Ahead], by simp, sublist_cons_self _ _,
      List.Sublist.refl _⟩
  | l :: ls, r :: rs =>
    have hbl := (hl.bounds l mem_cons_self).2.1
    have hbr := (hr.bounds r mem_cons_self).2.1
    rw [next] at h
    split_ifs at h with heq hlr hrl
    · cases h
      subst heq
      refine ⟨fun x => ?_, ahead_tail hl, ahead_tail hr, by simp; omega, sublist_cons_self _ _,
        sublist_cons_self _ _⟩
      simp only [mem_cons]
      tauto
    · cases h
      refine ⟨fun x => ?_, ahead_tail hl, ahead_other hr hbl hlr, by simp, sublist_cons_self _ _,
        List.Sublist.refl _⟩
      simp only [mem_cons]
      tauto
    · cases h
      refine ⟨fun x => ?_, ahead_other hl hbr hrl, ahead_tail hr, by simp, List.Sublist.refl _,
        sublist_cons_self _ _⟩
      simp only [mem_cons]
      tauto

/-- Changes that are made one after the other, no two of them insertions at one place. -/
structure Ordered (base : List α) (cs : List (LineHunk α)) : Prop where
  before : cs.Pairwise fun c c' => c.stop ≤ c'.start ∧ c.start < c'.stop
  bounds : ∀ c ∈ cs, c.start ≤ c.stop ∧ c.stop ≤ base.length

/-- The changes of both sides in the order of the loop are in order. -/
theorem interleaved_spec (h : Interleaved ls rs cs) (hl : Placed base pos ls)
    (hr : Placed base pos' rs) :
    Ordered base cs ∧ ∀ x, x ∈ cs ↔ x ∈ ls ∨ x ∈ rs := by
  induction h with
  | done => exact ⟨⟨List.Pairwise.nil, by simp⟩, by simp⟩
  | @take ls rs ls' rs' cs c hnext hrest ih =>
    obtain ⟨hmem, hal, har, -, hsubl, hsubr⟩ := next_take hl hr hnext
    obtain ⟨hordered, hiff⟩ := ih (hl.sublist hsubl) (hr.sublist hsubr)
    have hahead : Ahead c cs := by
      intro x hx
      rcases (hiff x).mp hx with hx | hx
      · exact hal x hx
      · exact har x hx
    refine ⟨⟨pairwise_cons.mpr ⟨hahead, hordered.before⟩, ?_⟩, fun x => ?_⟩
    · rw [forall_mem_cons]
      refine ⟨?_, hordered.bounds⟩
      rcases (hmem c).mpr (.inl rfl) with hc | hc
      · exact (hl.bounds c hc).2
      · exact (hr.bounds c hc).2
    · rw [mem_cons, hiff, hmem]

/-- What the loop joins is the base with the changes of both sides made. -/
theorem mergeLoop_spec {k : Nat} {out merged : List α} (hn : ls.length + rs.length ≤ n)
    (hl : Placed base pos ls) (hr : Placed base pos' rs)
    (h : mergeLoop base n ls rs k out = some merged) :
    ∃ cs, Interleaved ls rs cs ∧ merged = out ++ patched base k base.length cs := by
  induction n generalizing ls rs k out with
  | zero =>
    have hls : ls = [] := length_eq_zero_iff.mp (by omega)
    have hrs : rs = [] := length_eq_zero_iff.mp (by omega)
    subst hls hrs
    exact ⟨[], .done, (Option.some.inj h).symm⟩
  | succ n ih =>
    rw [mergeLoop] at h
    cases hnext : next ls rs with
    | done =>
      obtain ⟨rfl, rfl⟩ := next_done hnext
      exact ⟨[], .done, (Option.some.inj h).symm⟩
    | conflict =>
      rw [hnext] at h
      cases h
    | take c ls' rs' =>
      obtain ⟨-, -, -, hlt, hsubl, hsubr⟩ := next_take hl hr hnext
      simp only [hnext] at h
      split_ifs at h
      obtain ⟨cs, hcs, hmerged⟩ := ih (by omega) (hl.sublist hsubl) (hr.sublist hsubr) h
      refine ⟨c :: cs, .take hnext hcs, ?_⟩
      rw [hmerged, patched]
      simp only [append_assoc]

/-! ## Exchanging the sides -/

/-- What is done next, with the sides exchanged. -/
def Next.swap : Next α → Next α
  | .done => .done
  | .conflict => .conflict
  | .take c ls rs => .take c rs ls

omit [DecidableEq α] in
theorem not_before_of_before {l r : LineHunk α} (hl : l.start ≤ l.stop) (hr : r.start ≤ r.stop)
    (h : lineChangeBefore l r = true) : lineChangeBefore r l = false := by
  simp only [lineChangeBefore, Bool.or_eq_true, Bool.and_eq_true, decide_eq_true_eq,
    Bool.not_eq_true',
    Bool.and_eq_false_iff, decide_eq_false_iff_not, Bool.or_eq_false_iff, Bool.not_eq_false'] at h ⊢
  omega

theorem next_swap (hl : Placed base pos ls) (hr : Placed base pos' rs) :
    next rs ls = (next ls rs).swap := by
  match ls, rs with
  | [], [] => rfl
  | [], r :: rs => rfl
  | l :: ls, [] => rfl
  | l :: ls, r :: rs =>
    have hbl := (hl.bounds l mem_cons_self).2.1
    have hbr := (hr.bounds r mem_cons_self).2.1
    by_cases heq : l = r
    · subst heq
      simp [next, Next.swap]
    · by_cases hlr : lineChangeBefore l r = true
      · simp [next, heq, Ne.symm heq, hlr, not_before_of_before hbl hbr hlr, Next.swap]
      · by_cases hrl : lineChangeBefore r l = true
        · simp [next, heq, Ne.symm heq, hlr, hrl, Next.swap]
        · simp [next, heq, Ne.symm heq, hlr, hrl, Next.swap]

theorem mergeLoop_swap (hl : Placed base pos ls) (hr : Placed base pos' rs)
    (n k : Nat) (out : List α) : mergeLoop base n rs ls k out = mergeLoop base n ls rs k out := by
  induction n generalizing ls rs k out with
  | zero => rfl
  | succ n ih =>
    rw [mergeLoop, mergeLoop, next_swap hl hr]
    cases hnext : next ls rs with
    | done => rfl
    | conflict => rfl
    | take c ls' rs' =>
      obtain ⟨-, -, -, -, hsubl, hsubr⟩ := next_take hl hr hnext
      simp only [Next.swap, ih (hl.sublist hsubl) (hr.sublist hsubr)]

/-- **The sides can be exchanged.** -/
theorem mergeTextLines_comm (base localText remote : Bytes) :
    mergeTextLines base remote localText = mergeTextLines base localText remote := by
  rw [mergeTextLines, mergeTextLines]
  by_cases hsame : localText = remote
  · subst hsame
    rfl
  · rw [if_neg hsame, if_neg (Ne.symm hsame)]
    by_cases hl : base = localText
    · have hr : base ≠ remote := fun h => hsame (hl.symm.trans h)
      rw [if_pos hl, if_neg hr, if_pos hl]
    · rw [if_neg hl]
      split_ifs
      · rfl
      · have hpl := (diffLineChanges_spec (splitLines base) (splitLines localText)).1
        have hpr := (diffLineChanges_spec (splitLines base) (splitLines remote)).1
        rw [mergeLineChanges, mergeLineChanges, mergeLoop_swap hpl hpr, Nat.add_comm]

/-! ## The lines of the result -/

section Members

omit [DecidableEq α]

variable {k : Nat} {x : α}

theorem mem_span {start stop : Nat} :
    x ∈ span base start stop ↔ ∃ i, start ≤ i ∧ i < stop ∧ base[i]? = some x := by
  rw [span, mem_iff_getElem?]
  constructor
  · rintro ⟨j, hj⟩
    rw [List.getElem?_take] at hj
    split_ifs at hj with hlt
    rw [List.getElem?_drop] at hj
    exact ⟨start + j, by omega, by omega, hj⟩
  · rintro ⟨i, hle, hlt, hi⟩
    refine ⟨i - start, ?_⟩
    rw [List.getElem?_take, if_pos (by omega), List.getElem?_drop, Nat.add_sub_cancel' hle, hi]

/-- A line of a range with changes made is a line of a change or a line of the range outside all of
them. -/
theorem mem_patched {stop : Nat} (hbefore : cs.Pairwise fun c c' => c.stop ≤ c'.start)
    (hbounds : ∀ c ∈ cs, k ≤ c.start ∧ c.start ≤ c.stop ∧ c.stop ≤ stop) :
    x ∈ patched base k stop cs ↔
      (∃ c ∈ cs, x ∈ c.lines) ∨
        ∃ i, k ≤ i ∧ i < stop ∧ base[i]? = some x ∧ ∀ c ∈ cs, i < c.start ∨ c.stop ≤ i := by
  induction cs generalizing k with
  | nil => simp [patched, mem_span]
  | cons c cs ih =>
    obtain ⟨hfirst, hrest⟩ := pairwise_cons.mp hbefore
    obtain ⟨hk, hc, hstop⟩ := hbounds c mem_cons_self
    have hbounds' : ∀ c' ∈ cs, c.stop ≤ c'.start ∧ c'.start ≤ c'.stop ∧ c'.stop ≤ stop :=
      fun c' hc' =>
      ⟨hfirst c' hc', (hbounds c' (mem_cons_of_mem c hc')).2⟩
    rw [patched, mem_append, mem_append, ih hrest hbounds', mem_span]
    constructor
    · rintro ((⟨i, hle, hlt, hi⟩ | hx) | (⟨c', hc', hx⟩ | ⟨i, hle, hlt, hi, hout⟩))
      · refine .inr ⟨i, hle, by omega, hi, forall_mem_cons.mpr ⟨.inl hlt, fun c' hc' => .inl ?_⟩⟩
        have := hbounds' c' hc'
        omega
      · exact .inl ⟨c, mem_cons_self, hx⟩
      · exact .inl ⟨c', mem_cons_of_mem c hc', hx⟩
      · exact .inr ⟨i, by omega, hlt, hi, forall_mem_cons.mpr ⟨.inr hle, hout⟩⟩
    · rintro (⟨c', hc', hx⟩ | ⟨i, hle, hlt, hi, hout⟩)
      · rcases mem_cons.mp hc' with rfl | hc'
        · exact .inl (.inr hx)
        · exact .inr (.inl ⟨c', hc', hx⟩)
      · rw [forall_mem_cons] at hout
        rcases hout.1 with hbefore | hbehind
        · exact .inl (.inl ⟨i, hle, hbefore, hi⟩)
        · exact .inr (.inr ⟨i, hbehind, hlt, hi, hout.2⟩)

/-- The changes of one text are in order. -/
theorem ordered_of_placed (hp : Placed base 0 cs) : Ordered base cs := by
  refine ⟨hp.apart.imp_of_mem fun hc hc' hlt => ?_, fun c hc => (hp.bounds c hc).2⟩
  have hbc := hp.bounds _ hc
  have hbc' := hp.bounds _ hc'
  omega

/-- A line of a base with changes made is a line of a change or a line of the base outside all of
them. -/
theorem Ordered.mem_patched (h : Ordered base cs) : x ∈ patched base 0 base.length cs ↔
    (∃ c ∈ cs, x ∈ c.lines) ∨ ∃ i, base[i]? = some x ∧ ∀ c ∈ cs, i < c.start ∨ c.stop ≤ i := by
  rw [LineMerge.mem_patched (h.before.imp And.left) fun c hc => ⟨Nat.zero_le _, h.bounds c hc⟩]
  refine or_congr_right (exists_congr fun i => ⟨fun hi => hi.2.2, fun hi => ⟨Nat.zero_le i, ?_, hi⟩⟩)
  exact (List.getElem?_eq_some_iff.mp hi.1).1

/-- The first changes of an ordered list. -/
theorem Ordered.of_append {cs' : List (LineHunk α)} (h : Ordered base (cs ++ cs')) :
    Ordered base cs :=
  ⟨(pairwise_append.mp h.before).1, fun c hc => h.bounds c (mem_append_left _ hc)⟩

/-- What the last change leaves behind it. -/
theorem Ordered.patched_concat (h : Ordered base (cs ++ [c])) :
    patched base 0 base.length (cs ++ [c]) =
      patched base 0 c.start cs ++ (c.lines ++ span base c.stop base.length) := by
  have hc := h.bounds c (by simp)
  rw [patched_append base (Nat.zero_le c.start) (by omega)
    (fun d hd => ((pairwise_append.mp h.before).2.2 d hd c (mem_singleton_self c)).1) (by simp)]
  simp [patched, span]

/-- A change at the end of the base is the last one. -/
theorem Ordered.exists_concat (h : Ordered base cs) (hc : c ∈ cs) (hend : c.start = base.length) :
    ∃ front, cs = front ++ [c] := by
  obtain ⟨front, back, rfl⟩ := append_of_mem hc
  cases back with
  | nil => exact ⟨front, rfl⟩
  | cons d back =>
    have hlt := (pairwise_cons.mp (pairwise_append.mp h.before).2.1).1 d mem_cons_self
    have hd := h.bounds d (by simp)
    omega

/-- The lines that a change at the end of the base adds come last. -/
theorem Ordered.patched_end (h : Ordered base (cs ++ [c])) (hend : c.start = base.length) :
    patched base 0 base.length (cs ++ [c]) = patched base 0 base.length cs ++ c.lines := by
  have hc := h.bounds c (by simp)
  rw [h.patched_concat, hend, show c.stop = base.length by omega]
  simp [span]

/-- A change of a text that is not at the end of the base has a line of the base behind it. -/
theorem patched_ne_nil (hp : Placed base pos (c :: cs)) (hlt : c.stop < base.length) :
    patched base c.stop base.length cs ≠ [] := by
  cases cs with
  | nil =>
    intro hnil
    have hlength := @length_span _ base c.stop base.length le_rfl
    rw [show span base c.stop base.length = [] from hnil, length_nil] at hlength
    omega
  | cons d cs =>
    have hd := hp.bounds d (by simp)
    have hapart := (pairwise_cons.mp hp.apart).1 d mem_cons_self
    intro hnil
    rw [patched] at hnil
    have hlength := @length_span _ base c.stop d.start (by omega)
    rw [(append_eq_nil_iff.mp (append_eq_nil_iff.mp hnil).1).1, length_nil] at hlength
    omega

end Members

/-- One line with its newline. -/
def EndedLine (l : Bytes) : Prop := splitLines l = [l] ∧ Ended l

/-- Lines with their newlines end with one. -/
theorem ended_flatten {ls : List Bytes} (h : ∀ l ∈ ls, EndedLine l) : Ended ls.flatten := by
  rcases eq_nil_or_concat' ls with rfl | ⟨front, l, rfl⟩
  · exact .inl rfl
  · obtain ⟨hone, hended⟩ := h l (by simp)
    have hne : l ≠ [] := by
      rintro rfl
      cases hone
    rw [flatten_append, flatten_singleton]
    refine .inr ?_
    rw [List.getLast?_append_of_ne_nil _ hne]
    exact hended.resolve_left hne

/-- The lines of a text that ends with a newline have theirs. -/
theorem endedLine_of_mem {data : Bytes} (h : Ended data) {l : Bytes} (hl : l ∈ splitLines data) :
    EndedLine l := by
  obtain ⟨front, back, hparts⟩ := append_of_mem hl
  obtain ⟨-, hrest, -⟩ := splitLines_parts front hparts
  have hdata : front.flatten ++ (l ++ back.flatten) = data := by
    rw [← flatten_splitLines data, hparts, flatten_append, flatten_cons]
  obtain ⟨hone, -, hended⟩ := @splitLines_parts (l :: back).flatten [l] back hrest
  rw [flatten_singleton] at hone hended
  refine ⟨hone, ?_⟩
  by_cases hback : back = []
  · -- the last line ends as the text does
    subst hback
    rw [flatten_nil, append_nil] at hdata
    have hne : l ≠ [] := by
      rintro rfl
      cases hone
    rcases h with h | h
    · rw [h] at hl
      cases hl
    · rw [← hdata, List.getLast?_append_of_ne_nil _ hne] at h
      exact .inr h
  · exact hended hback

/-- Lines with their newlines, put together, are the same lines. -/
theorem splitLines_flatten {ls : List Bytes} (h : ∀ l ∈ ls, EndedLine l) :
    splitLines ls.flatten = ls := by
  induction ls with
  | nil => rfl
  | cons l ls ih =>
    rw [forall_mem_cons] at h
    rw [flatten_cons, splitLines_append h.1.2, h.1.1, ih h.2]
    rfl

/-- The lines of a text that are not at its end have their newlines. -/
theorem endedLine_of_front {data : Bytes} {front back : List Bytes}
    (h : splitLines data = front ++ back)
    (hback : back ≠ []) {l : Bytes} (hl : l ∈ front) : EndedLine l := by
  obtain ⟨hone, -, hended⟩ := splitLines_parts front h
  rw [← hone] at hl
  exact endedLine_of_mem (hended hback) hl

/-- Every line of a text but the last has its newline. -/
theorem endedLine_of_lt {data l : Bytes} {i : Nat} (hl : (splitLines data)[i]? = some l)
    (hlt : i + 1 < (splitLines data).length) : EndedLine l := by
  refine endedLine_of_front (take_append_drop (i + 1) (splitLines data)).symm ?_
    (mem_of_getElem? ((getElem?_take_of_lt (Nat.lt_succ_self i)).trans hl))
  rw [Ne, drop_eq_nil_iff]
  omega

/-- The lines of a base with changes made. -/
def withChanges (base : List Bytes) (cs : List (LineHunk Bytes)) : List Bytes :=
  patched base 0 base.length cs

/-- The changes that make a text of its base. -/
def lineChanges (base text : Bytes) : List (LineHunk Bytes) :=
  diffLineChanges (splitLines base) (splitLines text)

section Sides

variable {base text other : Bytes} {c : LineHunk Bytes} {cs : List (LineHunk Bytes)} {x : Bytes}

variable (base text) in
/-- The changes of a text are in order. -/
theorem ordered_lineChanges : Ordered (splitLines base) (lineChanges base text) :=
  ordered_of_placed (diffLineChanges_spec _ _).1

variable (base text) in
/-- The changes of a text make it of the base. -/
theorem withChanges_lineChanges :
    withChanges (splitLines base) (lineChanges base text) = splitLines text :=
  (diffLineChanges_spec _ _).2

/-- A change at the end of the base has lines. -/
theorem lines_ne_nil (hc : c ∈ lineChanges base text) (hend : c.start = (splitLines base).length) :
    c.lines ≠ [] := by
  have hp := (diffLineChanges_spec (splitLines base) (splitLines text)).1
  have hb := hp.bounds c hc
  exact (hp.changes c hc).resolve_left (by omega)

/-- The changes of one text before one at the end of the base stop before the end. -/
theorem stop_lt_of_end (hc : c ∈ lineChanges base text) (hend : c.start = (splitLines base).length)
    {d : LineHunk Bytes} (hd : d ∈ lineChanges base text) (hne : d ≠ c) :
    d.stop < (splitLines base).length := by
  have hp := (diffLineChanges_spec (splitLines base) (splitLines text)).1
  obtain ⟨front, hfront⟩ := (ordered_lineChanges base text).exists_concat hc hend
  have hapart := hp.apart
  change (lineChanges base text).Pairwise _ at hapart
  rw [hfront, pairwise_append] at hapart
  rw [hfront, mem_append, mem_singleton] at hd
  rw [← hend]
  exact hapart.2.2 d (hd.resolve_right hne) c (mem_singleton_self c)

/-- A line of a change that is not at the end of the base has its newline. -/
theorem endedLine_of_change (hc : c ∈ lineChanges base text)
    (hlt : c.stop < (splitLines base).length) (hx : x ∈ c.lines) : EndedLine x := by
  have hp := (diffLineChanges_spec (splitLines base) (splitLines text)).1
  obtain ⟨front, back, hparts⟩ := append_of_mem hc
  have htext := withChanges_lineChanges base text
  change Placed _ 0 (lineChanges base text) at hp
  rw [hparts] at hp
  rw [withChanges, hparts] at htext
  have hb := hp.bounds c (by simp)
  have happend := patched_append (splitLines base) (Nat.zero_le c.start) (hb.2.1.trans hb.2.2)
    (fun d hd => ((pairwise_append.mp hp.apart).2.2 d hd c mem_cons_self).le)
    (fun d hd => hp.sublist (sublist_append_right _ _) |>.first_le hd)
  rw [happend, patched, span, Nat.sub_self, take_zero, nil_append, ← append_assoc] at htext
  exact endedLine_of_front htext.symm (patched_ne_nil (hp.sublist (sublist_append_right _ _)) hlt)
    (mem_append_right _ hx)

variable (base text other) in
/-- The other side adds lines behind the last line of the base, with a change that this side does
not make, and the text of this side lacks its last newline. -/
def RunsInto : Prop :=
  ¬Ended text ∧ ∃ c ∈ lineChanges base other, c.start = (splitLines base).length ∧
    c ∉ lineChanges base text

/-- The added lines are behind a line without a newline. -/
theorem RunsInto.joins (h : RunsInto base text other) (hcs : Ordered (splitLines base) cs)
    (hiff : ∀ c, c ∈ cs ↔ c ∈ lineChanges base text ∨ c ∈ lineChanges base other) (merged : Bytes) :
    splitLines merged ≠ withChanges (splitLines base) cs := by
  obtain ⟨hopen, r, hr, hend, hnot⟩ := h
  obtain ⟨x, hx, hxopen⟩ : ∃ x ∈ splitLines text, ¬EndedLine x := by
    by_contra hall
    push Not at hall
    have hended := ended_flatten hall
    rw [flatten_splitLines] at hended
    exact hopen hended
  obtain ⟨front, rfl⟩ := hcs.exists_concat ((hiff r).mpr (.inr hr)) hend
  intro hmerged
  rw [withChanges, hcs.patched_end hend] at hmerged
  refine hxopen (endedLine_of_front hmerged (lines_ne_nil hr hend) ?_)
  rw [← withChanges_lineChanges base, withChanges,
    (ordered_lineChanges base text).mem_patched] at hx
  rw [hcs.of_append.mem_patched]
  have hfront : ∀ c, c ∈ lineChanges base text → c ∈ front := by
    intro c hc
    have hmem := (hiff c).mpr (.inl hc)
    rw [mem_append, mem_singleton] at hmem
    exact hmem.resolve_right fun heq => hnot (heq ▸ hc)
  rcases hx with ⟨c, hc, hx⟩ | ⟨i, hi, hout⟩
  · exact .inl ⟨c, hfront c hc, hx⟩
  · -- the open line is the last one of the base, which the other side keeps as well
    refine .inr ⟨i, hi, fun c hc => ?_⟩
    rcases (hiff c).mp (mem_append_left _ hc) with hc' | hc'
    · exact hout c hc'
    · have hlast : ¬i + 1 < (splitLines base).length := fun hlt => hxopen (endedLine_of_lt hi hlt)
      have hne : c ≠ r := by
        rintro rfl
        have := (pairwise_append.mp hcs.before).2.2 c hc c (mem_singleton_self c)
        omega
      have hlt := stop_lt_of_end hr hend hc' hne
      exact .inr (by omega)

/-- A line of the base that a text keeps before a change at the end has its newline. -/
theorem endedLine_of_kept (hc : c ∈ lineChanges base text)
    (hend : c.start = (splitLines base).length) {i : Nat} (hi : (splitLines base)[i]? = some x)
    (hout : ∀ d ∈ lineChanges base text, i < d.start ∨ d.stop ≤ i) :
    EndedLine x := by
  have hordered := ordered_lineChanges base text
  have htext := withChanges_lineChanges base text
  have hlines := lines_ne_nil hc hend
  obtain ⟨front, hfront⟩ := hordered.exists_concat hc hend
  rw [hfront] at hordered hout
  rw [hfront, withChanges, hordered.patched_end hend] at htext
  refine endedLine_of_front htext.symm hlines (hordered.of_append.mem_patched.mpr (.inr ⟨i, hi, ?_⟩))
  exact fun d hd => hout d (mem_append_left _ hd)

/-- Everything before the last change of both sides has its newline. -/
theorem endedLine_of_mem_front (hc : c ∈ lineChanges base text) (hnot : ¬RunsInto base other text)
    (hcs : Ordered (splitLines base) (cs ++ [c]))
    (hiff : ∀ d, d ∈ cs ++ [c] ↔ d ∈ lineChanges base text ∨ d ∈ lineChanges base other)
    (hx : x ∈ patched (splitLines base) 0 c.start cs) : EndedLine x := by
  have hbefore := (pairwise_append.mp hcs.before).2.2
  have hbc := hcs.bounds c (by simp)
  rw [mem_patched (hcs.of_append.before.imp And.left) fun d hd => ⟨Nat.zero_le _,
    (hcs.of_append.bounds d hd).1, (hbefore d hd c (mem_singleton_self c)).1⟩] at hx
  rcases hx with ⟨d, hd, hx⟩ | ⟨i, -, hlt, hi, hout⟩
  · have hdc := hbefore d hd c (mem_singleton_self c)
    have hne : d ≠ c := by
      rintro rfl
      omega
    by_cases hstop : d.stop < (splitLines base).length
    · rcases (hiff d).mp (mem_append_left _ hd) with hd' | hd'
      · exact endedLine_of_change hd' hstop hx
      · exact endedLine_of_change hd' hstop hx
    · -- the change touches the last one, which adds lines at the end of the base
      have hend : c.start = (splitLines base).length := by omega
      have hnotin : d ∉ lineChanges base text := fun hd' => hstop (stop_lt_of_end hc hend hd' hne)
      have hd' := ((hiff d).mp (mem_append_left _ hd)).resolve_left hnotin
      have hnotin' : c ∉ lineChanges base other :=
        fun hc' => hstop (stop_lt_of_end hc' hend hd' hne)
      have hended : Ended other := by
        by_contra hopen
        exact hnot ⟨hopen, c, hc, hend, hnotin'⟩
      refine endedLine_of_mem hended ?_
      rw [← withChanges_lineChanges base, withChanges, (ordered_lineChanges base other).mem_patched]
      exact .inl ⟨d, hd', hx⟩
  · by_cases hlast : i + 1 < (splitLines base).length
    · exact endedLine_of_lt hi hlast
    · refine endedLine_of_kept hc (by omega) hi fun d hd => ?_
      have hmem := (hiff d).mpr (.inl hd)
      rw [mem_append, mem_singleton] at hmem
      rcases hmem with hd | rfl
      · exact hout d hd
      · exact .inl hlt

/-- What the last change of both sides leaves behind it is the end of the text that makes the
change. -/
theorem splitLines_last (hc : c ∈ lineChanges base text)
    (hcs : Ordered (splitLines base) (cs ++ [c]))
    (hiff : ∀ d, d ∈ lineChanges base text → d ∈ cs ++ [c]) :
    splitLines (c.lines ++ span (splitLines base) c.stop (splitLines base).length).flatten =
      c.lines ++ span (splitLines base) c.stop (splitLines base).length := by
  have hordered := ordered_lineChanges base text
  have htext := withChanges_lineChanges base text
  obtain ⟨front, back, hparts⟩ := append_of_mem hc
  have hback : back = [] := by
    refine eq_nil_iff_forall_not_mem.mpr fun d hd => ?_
    rw [hparts] at hordered hiff
    have hcd := (pairwise_cons.mp (pairwise_append.mp hordered.before).2.1).1 d hd
    have hmem := hiff d (by simp [hd])
    rw [mem_append, mem_singleton] at hmem
    rcases hmem with hmem | rfl
    · have hdc := (pairwise_append.mp hcs.before).2.2 d hmem c (mem_singleton_self c)
      omega
    · omega
  subst hback
  rw [hparts] at hordered
  rw [hparts, withChanges, hordered.patched_concat] at htext
  exact (splitLines_parts _ htext.symm).2.1

/-- **The lines of both sides** stay lines where no line runs into another. -/
theorem splitLines_withChanges (htext : ¬RunsInto base text other)
    (hother : ¬RunsInto base other text) (hcs : Ordered (splitLines base) cs)
    (hiff : ∀ c, c ∈ cs ↔ c ∈ lineChanges base text ∨ c ∈ lineChanges base other) :
    splitLines (withChanges (splitLines base) cs).flatten = withChanges (splitLines base) cs := by
  rcases eq_nil_or_concat' cs with rfl | ⟨front, c, rfl⟩
  · rw [withChanges, patched, span_all, flatten_splitLines]
  · have hfront : (∀ x ∈ patched (splitLines base) 0 c.start front, EndedLine x) ∧
        splitLines (c.lines ++ span (splitLines base) c.stop (splitLines base).length).flatten =
          c.lines ++ span (splitLines base) c.stop (splitLines base).length := by
      rcases (hiff c).mp (by simp) with hc | hc
      · exact ⟨fun x hx => endedLine_of_mem_front hc hother hcs hiff hx,
          splitLines_last hc hcs fun d hd => (hiff d).mpr (.inl hd)⟩
      · exact ⟨fun x hx => endedLine_of_mem_front hc htext hcs (fun d => (hiff d).trans or_comm) hx,
          splitLines_last hc hcs fun d hd => (hiff d).mpr (.inr hd)⟩
    rw [withChanges, hcs.patched_concat, flatten_append, splitLines_append (ended_flatten hfront.1),
      splitLines_flatten hfront.1, hfront.2]

end Sides

/-- The lines of a merge are those of the base with the changes of both sides made, each once and in
order, the changes of a side are what makes its text, and the sides can be exchanged. -/
structure Merges (base localText remote merged : Bytes) : Prop where
  lines : ∃ cs, Ordered (splitLines base) cs ∧
    (∀ c, c ∈ cs ↔ c ∈ lineChanges base localText ∨ c ∈ lineChanges base remote) ∧
    splitLines merged = withChanges (splitLines base) cs
  localLines : withChanges (splitLines base) (lineChanges base localText) = splitLines localText
  remoteLines : withChanges (splitLines base) (lineChanges base remote) = splitLines remote
  exchanged : mergeTextLines base remote localText = some merged

/-- **A clean merge** is the base with the changes of both sides exactly when one text is given back
as it is or no line without a newline gets a line behind it. -/
theorem mergeTextLines_spec {base localText remote merged : Bytes}
    (h : mergeTextLines base localText remote = some merged) : Merges base localText remote merged ↔
      localText = remote ∨ base = localText ∨ base = remote ∨
        ¬RunsInto base localText remote ∧ ¬RunsInto base remote localText := by
  have hl := withChanges_lineChanges base localText
  have hr := withChanges_lineChanges base remote
  have hswap := (mergeTextLines_comm base localText remote).trans h
  have hself : lineChanges base base = [] := collect_walk_self _ _ 0
  rw [mergeTextLines] at h
  split_ifs at h with hsame hbl hbr
  · cases h
    subst hsame
    exact ⟨fun _ => .inl rfl, fun _ => ⟨⟨_, ordered_lineChanges _ _, by simp, hl.symm⟩, hl, hr, hswap⟩⟩
  · cases h
    subst hbl
    exact ⟨fun _ => .inr (.inl rfl),
      fun _ => ⟨⟨_, ordered_lineChanges _ _, by simp [hself], hr.symm⟩, hl, hr, hswap⟩⟩
  · cases h
    subst hbr
    exact ⟨fun _ => .inr (.inr (.inl rfl)),
      fun _ => ⟨⟨_, ordered_lineChanges _ _, by simp [hself], hl.symm⟩, hl, hr, hswap⟩⟩
  · obtain ⟨lines, hlines, rfl⟩ := map_eq_some_iff.mp h
    obtain ⟨cs, hcs, rfl⟩ := mergeLoop_spec le_rfl (diffLineChanges_spec _ _).1 (diffLineChanges_spec _ _).1 hlines
    obtain ⟨hordered, hiff⟩ := interleaved_spec hcs (diffLineChanges_spec _ _).1 (diffLineChanges_spec _ _).1
    constructor
    · rintro ⟨⟨cs, hordered, hiff, hsplit⟩, -⟩
      exact .inr (.inr (.inr ⟨fun hruns => hruns.joins hordered hiff _ hsplit,
        fun hruns => hruns.joins hordered (fun c => (hiff c).trans or_comm) _ hsplit⟩))
    · rintro (hcond | hcond | hcond | ⟨hlocal, hremote⟩)
      · exact absurd hcond hsame
      · exact absurd hcond hbl
      · exact absurd hcond hbr
      · exact ⟨⟨cs, hordered, hiff, splitLines_withChanges hlocal hremote hordered hiff⟩, hl,
          hr, hswap⟩

/-- Two changes that touch, where neither text ends with a newline. -/
theorem mergeTextLines_spec_touching :
    mergeTextLines (utf8 "a\nb\nc") (utf8 "x\nb\nc") (utf8 "a\ny\nc") =
    some (utf8 "x\ny\nc") ∧ Merges (utf8 "a\nb\nc") (utf8 "x\nb\nc") (utf8 "a\ny\nc") (utf8 "x\ny\nc") :=
  have hclean : mergeTextLines (utf8 "a\nb\nc") (utf8 "x\nb\nc") (utf8 "a\ny\nc") =
      some (utf8 "x\ny\nc") := by
    decide +kernel
  have hruns : ¬RunsInto (utf8 "a\nb\nc") (utf8 "x\nb\nc") (utf8 "a\ny\nc") ∧
      ¬RunsInto (utf8 "a\nb\nc") (utf8 "a\ny\nc") (utf8 "x\nb\nc") := by
    unfold RunsInto Ended
    decide +kernel
  ⟨hclean, (mergeTextLines_spec hclean).mpr (.inr (.inr (.inr hruns)))⟩

/-- A line that one side puts last without a newline runs into a line that the other side
appends. -/
theorem mergeTextLines_joins_lines :
    mergeTextLines (utf8 "a\n") (utf8 "b") (utf8 "a\nc\n") = some (utf8 "bc\n") ∧
      ¬Merges (utf8 "a\n") (utf8 "b") (utf8 "a\nc\n") (utf8 "bc\n") := by
  refine ⟨by decide +kernel, fun h => ?_⟩
  obtain ⟨cs, hordered, hiff, hsplit⟩ := h.lines
  refine RunsInto.joins ?_ hordered hiff _ hsplit
  unfold RunsInto Ended
  decide +kernel

end LineMerge

end GitSlice
