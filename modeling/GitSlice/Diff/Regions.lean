import GitSlice.Diff.Merge3

/-! # The regions of a merge
The loop of `Merge3` with what it does to each range of the base: `regionsFrom` takes the same steps
as `mergeFrom` and keeps the ranges apart, and `mergeFrom_eq` says that the lines of the regions are
the lines that `Merge3` writes.

`merge3_symmetric`: with the two sides exchanged the regions are the same, with the sides of the
conflicts exchanged. A cluster does not depend on the side it starts with, since it is the least one
that no hunk touches (`Cluster.grow_within`). -/

namespace GitSlice

open List

/-! ## The code -/

/-- What `Merge3` does with the lines `start` to `stop` of the base. -/
inductive Region where
  | merged (start stop : Nat) (lines : List Bytes)
  | conflict (start stop : Nat) (ours theirs : List Bytes)
  deriving DecidableEq

namespace Region

/-- The lines written for the region. -/
def lines (oursLabel theirsLabel : Bytes) : Region → List Bytes
  | .merged _ _ lines => lines
  | .conflict _ _ ours theirs => GitSlice.conflict oursLabel theirsLabel ours theirs

/-- No conflict. -/
def isClean : Region → Bool
  | .merged .. => true
  | .conflict .. => false

/-- The region with the sides exchanged. -/
def swap : Region → Region
  | .merged start stop lines => .merged start stop lines
  | .conflict start stop ours theirs => .conflict start stop theirs ours

end Region

/-- The region of a cluster. -/
def Cluster.region (c : Cluster) (ours theirs : List Bytes) : Region :=
  if c.ours.taken = [] then .merged c.start c.stop theirs
  else if c.theirs.taken = [] ∨ ours = theirs then .merged c.start c.stop ours
  else .conflict c.start c.stop ours theirs

/-- The loop of `Merge3` from line `pos` of the base. -/
def regionsFrom (base : List Bytes) :
    Nat → Nat → List (LineHunk Bytes) → List (LineHunk Bytes) → Option (List Region)
  | 0, _, _, _ => none
  | rounds + 1, pos, oursHunks, theirsHunks =>
    match firstCluster oursHunks theirsHunks with
    | none => (slice base pos base.length).map fun out => [.merged pos base.length out]
    | some c => do
      let c := c.grow (oursHunks.length + theirsHunks.length)
      let before ← slice base pos c.start
      let ours ← applyHunks base c.start c.stop c.ours.taken
      let theirs ← applyHunks base c.start c.stop c.theirs.taken
      let rest ← regionsFrom base rounds c.stop c.ours.left c.theirs.left
      return .merged pos c.start before :: c.region ours theirs :: rest

/-- The regions of `Merge3`; a file that is returned as it is is one region. -/
def merge3Regions (base ours theirs : Bytes) : Option (List Region) :=
  if ours = theirs ∨ base = theirs then some [.merged 0 (splitLines base).length (splitLines ours)]
  else if base = ours then some [.merged 0 (splitLines base).length (splitLines theirs)]
  else do
    let baseLines := splitLines base
    let oursHunks ← lineHunks baseLines (splitLines ours)
    let theirsHunks ← lineHunks baseLines (splitLines theirs)
    regionsFrom baseLines (oursHunks.length + theirsHunks.length + 1) 0 oursHunks theirsHunks

/-! ## The lines of the regions -/

/-- All lines written. -/
def regionLines (oursLabel theirsLabel : Bytes) (regions : List Region) : List Bytes :=
  regions.flatMap (Region.lines oursLabel theirsLabel)

variable {base : List Bytes} {rounds pos : Nat} {os ts : List (LineHunk Bytes)} {c c' : Cluster}

theorem Cluster.region_spec (c : Cluster) (oursLabel theirsLabel : Bytes)
    (ours theirs : List Bytes) :
    c.resolve oursLabel theirsLabel ours theirs =
      ((c.region ours theirs).lines oursLabel theirsLabel, (c.region ours theirs).isClean) := by
  unfold resolve region
  split_ifs <;> rfl

/-- **The loop of `Merge3`** writes the lines of the regions. -/
theorem mergeFrom_eq (oursLabel theirsLabel : Bytes) :
    mergeFrom base oursLabel theirsLabel rounds pos os ts = (regionsFrom base rounds pos os ts).map
      fun regions => (regionLines oursLabel theirsLabel regions, regions.all Region.isClean) := by
  induction rounds generalizing pos os ts with
  | zero => rfl
  | succ rounds ih =>
    simp only [mergeFrom, regionsFrom]
    cases firstCluster os ts with
    | none => simp [Function.comp_def, regionLines, Region.lines, Region.isClean]
    | some c =>
      simp only [ih, Cluster.region_spec, Option.bind_eq_bind, Option.bind_map]
      simp [regionLines, Region.lines, Region.isClean]

theorem merge3_eq (base ours theirs oursLabel theirsLabel : Bytes) :
    merge3 base ours theirs oursLabel theirsLabel = (merge3Regions base ours theirs).map
      fun regions => ((regionLines oursLabel theirsLabel regions).flatten, regions.all Region.isClean) := by
  unfold merge3 merge3Regions
  split_ifs
  · simp [regionLines, Region.lines, Region.isClean, flatten_splitLines]
  · simp [regionLines, Region.lines, Region.isClean, flatten_splitLines]
  · simp only [mergeFrom_eq, Option.bind_eq_bind, Option.map_eq_bind, Option.bind_assoc]
    rfl

/-! ## Clusters do not depend on the order of the sides -/

/-- The hunks of the cluster are hunks of a larger one. -/
structure Cluster.Within (c d : Cluster) : Prop where
  ours : c.ours.Grows d.ours
  theirs : c.theirs.Grows d.theirs
  stop : c.stop ≤ d.stop

/-- The cluster with the sides exchanged. -/
def Cluster.swap (c : Cluster) : Cluster := ⟨c.start, c.stop, c.theirs, c.ours⟩

theorem Side.Grows.step {side d : Side} {h : LineHunk Bytes} {hs : List (LineHunk Bytes)}
    {stop : Nat} (hgrows : side.Grows d) (hside : side.left = h :: hs)
    (hafter : ∀ h ∈ d.left, stop < h.start)
    (hstart : h.start ≤ stop) : Side.Grows ⟨side.taken ++ [h], hs⟩ d ∧ h ∈ d.taken := by
  obtain ⟨hsame, more, hmore⟩ := hgrows
  rw [hside, ← hmore, append_assoc, append_cancel_left_eq] at hsame
  cases more with
  | nil =>
    have := hafter h (by rw [← nil_append d.left, hsame]; exact mem_cons_self)
    omega
  | cons h' more =>
    cases hsame
    refine ⟨⟨?_, more, ?_⟩, ?_⟩
    · simp [← hmore]
    · simp [← hmore]
    · simp [← hmore]

theorem Side.take_within {side d : Side} {stop stop' : Nat} (hgrows : side.Grows d)
    (hle : stop ≤ stop') (hinside : ∀ h ∈ d.taken, h.stop ≤ stop')
    (hafter : ∀ h ∈ d.left, stop' < h.start) (other : Bool) :
    (side.take stop other).1.Grows d ∧ (side.take stop other).2.1 ≤ stop' := by
  unfold take
  cases hside : side.left with
  | nil => exact ⟨hgrows, hle⟩
  | cons h hs =>
    dsimp only
    split_ifs with htouch
    · obtain ⟨hstep, hmem⟩ := hgrows.step hside hafter (by omega)
      exact ⟨hstep, max_le hle (hinside h hmem)⟩
    · exact ⟨hgrows, hle⟩

/-- No other hunk touches the cluster. -/
structure Cluster.Closed (d : Cluster) : Prop where
  ours : ∀ h ∈ d.ours.taken, h.stop ≤ d.stop
  theirs : ∀ h ∈ d.theirs.taken, h.stop ≤ d.stop
  oursAfter : ∀ h ∈ d.ours.left, d.stop < h.start
  theirsAfter : ∀ h ∈ d.theirs.left, d.stop < h.start

variable {d : Cluster}

/-- **A cluster grows only as far as it has to**: it stays in every cluster that no other hunk
touches. -/
theorem Cluster.grow_within (h : c.Within d) (hd : d.Closed) : (c.grow rounds).Within d := by
  induction rounds generalizing c with
  | zero => exact h
  | succ rounds ih =>
    obtain ⟨ho, hstop⟩ := Side.take_within h.ours h.stop hd.ours hd.oursAfter (!c.theirs.taken.isEmpty)
    obtain ⟨ht, hstop⟩ := Side.take_within h.theirs hstop hd.theirs hd.theirsAfter (!c.ours.taken.isEmpty)
    rw [grow]
    split_ifs
    · exact ih ⟨ho, ht, hstop⟩
    · exact ⟨ho, ht, hstop⟩

theorem Side.Grows.antisymm {side side' : Side} (h : side.Grows side') (h' : side'.Grows side) :
    side = side' := by
  have htaken : side.taken = side'.taken := h.more.eq_of_length_le h'.more.length_le
  have hleft := h.same
  rw [htaken, append_cancel_left_eq] at hleft
  obtain ⟨taken, left⟩ := side
  cases htaken
  cases hleft
  rfl

section

variable (ho : Placed base pos os) (ht : Placed base pos ts) (h : firstCluster os ts = some c)
include ho ht h

/-- The cluster that starts with the other side: it starts at the same line, and the cluster that
grows from this one takes it in. -/
theorem firstCluster_swap (h' : firstCluster ts os = some c') (hd : c.Within d)
    (hclosed : d.Closed) :
    c'.swap.Within d ∧ c'.start = c.start := by
  cases os with
  | nil =>
    cases ts with
    | nil => cases h
    | cons t ts =>
      cases h
      cases h'
      exact ⟨hd, rfl⟩
  | cons o os =>
    cases ts with
    | nil =>
      cases h
      cases h'
      exact ⟨hd, rfl⟩
    | cons t ts =>
      have hobounds := ho.bounds o mem_cons_self
      rw [firstCluster] at h h'
      split_ifs at h h' with hle hle'
      · -- both sides have a hunk at the same line, and the cluster takes in the other one
        cases h
        cases h'
        have hstop : o.stop ≤ d.stop := hd.stop
        obtain ⟨hstep, hmem⟩ := hd.theirs.step rfl hclosed.theirsAfter (by omega)
        refine ⟨⟨?_, hstep, hclosed.theirs t hmem⟩, le_antisymm hle' hle⟩
        exact ⟨hd.ours.same, nil_prefix⟩
      · cases h
        cases h'
        exact ⟨hd, rfl⟩
      · cases h
        cases h'
        exact ⟨hd, rfl⟩
      · omega

theorem Cluster.grown_spec (hd : c.grow (os.length + ts.length) = d) :
    c.Within d ∧ d.Closed ∧ d.start = c.start ∧ Placed base pos d.ours.left ∧
      Placed base pos d.theirs.left := by
  obtain ⟨hholds₀, hpos, -, -, hleft⟩ := firstCluster_spec ho ht h
  obtain ⟨hholds, hstart, hours, htheirs, hoursAfter, htheirsAfter⟩ := grow_spec hholds₀ hleft
  rw [hd] at hholds hstart hours htheirs hoursAfter htheirsAfter
  have hstop : c.stop ≤ d.stop := by
    rcases hholds₀.last with ⟨hunk, hh, heq⟩ | ⟨hunk, hh, heq⟩
    · exact heq ▸ hholds.ours.inside hunk (hours.more.subset hh)
    · exact heq ▸ hholds.theirs.inside hunk (htheirs.more.subset hh)
  rw [← hstart] at hpos
  exact ⟨⟨hours, htheirs, hstop⟩, ⟨hholds.ours.inside, hholds.theirs.inside, hoursAfter, htheirsAfter⟩, hstart,
    (hholds.ours.placed.sublist (sublist_append_right _ _)).mono hpos,
    (hholds.theirs.placed.sublist (sublist_append_right _ _)).mono hpos⟩

/-- **Clusters are the same** for both orders of the sides. -/
theorem Cluster.grow_swap (h' : firstCluster ts os = some c') :
    c'.grow (ts.length + os.length) = (c.grow (os.length + ts.length)).swap := by
  generalize hd : c.grow (os.length + ts.length) = d
  generalize hd' : c'.grow (ts.length + os.length) = d'
  obtain ⟨hin, hclosed, hstart, -⟩ := grown_spec ho ht h hd
  obtain ⟨hin', hclosed', hstart', -⟩ := grown_spec ht ho h' hd'
  obtain ⟨hother, hsame⟩ := firstCluster_swap ho ht h h' hin hclosed
  obtain ⟨hother', -⟩ := firstCluster_swap ht ho h' h hin' hclosed'
  have hle : d'.Within d.swap := by
    rw [← hd']
    exact grow_within ⟨hother.theirs, hother.ours, hother.stop⟩
      ⟨hclosed.theirs, hclosed.ours, hclosed.theirsAfter, hclosed.oursAfter⟩
  have hle' : d.Within d'.swap := by
    rw [← hd]
    exact grow_within ⟨hother'.theirs, hother'.ours, hother'.stop⟩
      ⟨hclosed'.theirs, hclosed'.ours, hclosed'.theirsAfter, hclosed'.oursAfter⟩
  have hours : d'.ours = d.theirs := hle.ours.antisymm hle'.theirs
  have htheirs : d'.theirs = d.ours := hle.theirs.antisymm hle'.ours
  rw [swap, ← hours, ← htheirs, hstart, ← hsame, ← hstart', le_antisymm hle'.stop hle.stop]
  rfl

end

/-! ## The regions with the sides exchanged -/

theorem Cluster.region_swap (c : Cluster) {ours theirs : List Bytes}
    (h : c.ours.taken = [] → c.theirs.taken = [] → ours = theirs) :
    c.swap.region theirs ours = (c.region ours theirs).swap := by
  unfold region swap
  by_cases ho : c.ours.taken = []
  · by_cases ht : c.theirs.taken = []
    · simp [h ho ht, Region.swap]
    · simp [ho, ht, Region.swap]
  · by_cases ht : c.theirs.taken = []
    · simp [ho, ht, Region.swap]
    · by_cases heq : ours = theirs
      · simp [heq, Region.swap]
      · simp [ho, ht, heq, Ne.symm heq, Region.swap]

theorem regionsFrom_swap {first : Nat} (ho : Placed base first os) (ht : Placed base first ts) :
    regionsFrom base rounds pos ts os =
      (regionsFrom base rounds pos os ts).map (List.map Region.swap) := by
  induction rounds generalizing pos os ts with
  | zero => rfl
  | succ rounds ih =>
    simp only [regionsFrom]
    cases h : firstCluster os ts with
    | none =>
      obtain ⟨rfl, rfl⟩ := firstCluster_eq_none h
      simp [firstCluster, Function.comp_def, Region.swap]
    | some c =>
      cases h' : firstCluster ts os with
      | none =>
        obtain ⟨rfl, rfl⟩ := firstCluster_eq_none h'
        cases h
      | some c' =>
        simp only [Cluster.grow_swap ho ht h h']
        generalize hd : c.grow (os.length + ts.length) = d
        obtain ⟨-, -, -, hoursLeft, htheirsLeft⟩ := Cluster.grown_spec ho ht h hd
        simp only [Cluster.swap, ih hoursLeft htheirsLeft]
        cases slice base pos d.start with
        | none => rfl
        | some before =>
          cases hours : applyHunks base d.start d.stop d.ours.taken with
          | none => cases applyHunks base d.start d.stop d.theirs.taken <;> rfl
          | some ours =>
            cases htheirs : applyHunks base d.start d.stop d.theirs.taken with
            | none => rfl
            | some theirs =>
              have hregion : d.swap.region theirs ours = (d.region ours theirs).swap := by
                refine d.region_swap fun hno hnt => ?_
                rw [hno, ← hnt, htheirs] at hours
                exact (Option.some.inj hours).symm
              rw [Cluster.swap] at hregion
              cases regionsFrom base rounds d.stop d.ours.left d.theirs.left with
              | none => rfl
              | some rest => simp [hregion, Region.swap]

theorem merge3Regions_swap (base a b : Bytes) :
    merge3Regions base b a = (merge3Regions base a b).map (List.map Region.swap) := by
  unfold merge3Regions
  by_cases hab : a = b
  · simp [hab, Region.swap]
  · by_cases ha : base = a
    · subst ha
      simp [hab, Region.swap]
    · by_cases hb : base = b
      · subst hb
        simp [Ne.symm hab, Region.swap]
      · obtain ⟨os, hos, ho, -⟩ := lineHunks_spec (splitLines base) (splitLines a)
        obtain ⟨ts, hts, ht, -⟩ := lineHunks_spec (splitLines base) (splitLines b)
        simp only [hab, Ne.symm hab, ha, hb, or_self, if_false, hos, hts, Option.bind_eq_bind,
          Option.bind_some]
        rw [regionsFrom_swap ho ht, Nat.add_comm ts.length]

/-- Every call gives regions, and with markers of one line they are made of lines. -/
theorem exists_regions (base ours theirs : Bytes) :
    ∃ regions, merge3Regions base ours theirs = some regions ∧
      ∀ oursLabel theirsLabel, newline ∉ oursLabel → newline ∉ theirsLabel →
        IsLines (regionLines oursLabel theirsLabel regions) := by
  unfold merge3Regions
  split_ifs
  · exact ⟨_, rfl, fun _ _ _ _ => ⟨ours, by simp [regionLines, Region.lines]⟩⟩
  · exact ⟨_, rfl, fun _ _ _ _ => ⟨theirs, by simp [regionLines, Region.lines]⟩⟩
  · obtain ⟨os, hos, ho, hoPatched, hoTight⟩ := lineHunks_spec (splitLines base) (splitLines ours)
    obtain ⟨ts, hts, ht, htPatched, htTight⟩ := lineHunks_spec (splitLines base) (splitLines theirs)
    have hrun := fun oursLabel theirsLabel => mergeFrom_spec oursLabel theirsLabel ho ht hoTight htTight
      (Nat.zero_le _) (Nat.lt_succ_self _) ⟨base, (span_all _).symm⟩ ⟨ours, hoPatched.symm⟩ ⟨theirs,
        htPatched.symm⟩
    simp only [mergeFrom_eq, Option.map_eq_some_iff] at hrun
    obtain ⟨-, -, -, ⟨regions, hregions, -⟩, -⟩ := hrun [] []
    simp only [hos, hts]
    refine ⟨regions, hregions, fun oursLabel theirsLabel hol htl => ?_⟩
    obtain ⟨out, clean, pieces, ⟨regions', hregions', heq⟩, -, hlines⟩ := hrun oursLabel theirsLabel
    rw [hregions, Option.some.injEq] at hregions'
    rw [Prod.mk.injEq] at heq
    rw [hregions', heq.1]
    exact hlines hol htl

/-! ## The specification -/

/-- **`Merge3` is symmetric.** With the sides exchanged it does the same to the same ranges of the
base, with the sides of each conflict exchanged; so both calls are clean or none is, and a clean
result is the same. -/
theorem merge3_symmetric (base a b oursLabel theirsLabel : Bytes) :
    ∃ regions, merge3Regions base a b = some regions ∧
      merge3Regions base b a = some (regions.map Region.swap) ∧
      merge3 base a b oursLabel theirsLabel =
        some ((regionLines oursLabel theirsLabel regions).flatten, regions.all Region.isClean) ∧
      merge3 base b a oursLabel theirsLabel =
        some ((regionLines oursLabel theirsLabel (regions.map Region.swap)).flatten, regions.all Region.isClean) ∧
      (regions.all Region.isClean = true →
        regionLines oursLabel theirsLabel (regions.map Region.swap) =
          regionLines oursLabel theirsLabel regions) := by
  obtain ⟨regions, hregions, -⟩ := exists_regions base a b
  have hswap : merge3Regions base b a = some (regions.map Region.swap) := by
    rw [merge3Regions_swap, hregions]
    rfl
  have hclean : (regions.map Region.swap).all Region.isClean = regions.all Region.isClean := by
    rw [all_map]
    congr
    funext region
    cases region <;> rfl
  refine ⟨regions, hregions, hswap, by rw [merge3_eq, hregions]; rfl, ?_, fun hall => ?_⟩
  · rw [merge3_eq, hswap, ← hclean]
    rfl
  · rw [all_eq_true] at hall
    have hsame : ∀ region ∈ regions, region.swap = id region := by
      intro region hregion
      cases region with
      | merged => rfl
      | conflict => cases hall _ hregion
    rw [map_congr_left hsame, map_id]

/-- **`Merge3` does not join lines.** The lines of the result are the lines that were written: every
line but the last ends with a newline. -/
theorem merge3_lines_apart (base ours theirs : Bytes) {oursLabel theirsLabel : Bytes}
    (hours : newline ∉ oursLabel) (htheirs : newline ∉ theirsLabel) :
    ∃ regions merged clean, merge3Regions base ours theirs = some regions ∧
      merge3 base ours theirs oursLabel theirsLabel = some (merged, clean) ∧
      merged = (regionLines oursLabel theirsLabel regions).flatten ∧
      splitLines merged = regionLines oursLabel theirsLabel regions ∧
      ∀ front l back, regionLines oursLabel theirsLabel regions = front ++ l :: back → back ≠ [] →
        l.getLast? = some newline := by
  obtain ⟨regions, hregions, hlines⟩ := exists_regions base ours theirs
  have hlines := hlines oursLabel theirsLabel hours htheirs
  refine ⟨regions, _, _, hregions, by rw [merge3_eq, hregions]; rfl, rfl, hlines.splitLines_eq, ?_⟩
  intro front l back hsplit hback
  rw [hsplit, ← singleton_append] at hlines
  have hl := hlines.right.left.splitLines_eq
  have hended := hlines.right.ended hback
  rw [flatten_singleton] at hl hended
  refine hended.resolve_left ?_
  rintro rfl
  cases hl

-- the last line of the base gets its newline in a conflict, and nowhere else
theorem merge3_lines_apart_unterminated :
    (newline ∉ utf8 "changeset" ∧ newline ∉ utf8 "upstream") ∧
      ∃ regions merged clean, merge3Regions (utf8 "a\nb") (utf8 "a\nb\nc") (utf8 "A\nb") =
        some regions ∧
        merge3 (utf8 "a\nb") (utf8 "a\nb\nc") (utf8 "A\nb") (utf8 "changeset") (utf8 "upstream") =
          some (merged, clean) ∧
        merged = (regionLines (utf8 "changeset") (utf8 "upstream") regions).flatten ∧
        splitLines merged = regionLines (utf8 "changeset") (utf8 "upstream") regions ∧
        ∀ front l back, regionLines (utf8 "changeset") (utf8 "upstream") regions =
          front ++ l :: back →
          back ≠ [] → l.getLast? = some newline :=
  ⟨by decide +kernel, merge3_lines_apart _ _ _ (by decide +kernel) (by decide +kernel)⟩

end GitSlice
