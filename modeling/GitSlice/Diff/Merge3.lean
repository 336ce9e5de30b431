import GitSlice.Diff.Hunks
import GitSlice.Diff.Lines

/-! # Three-way merge
`Merge3` of `internal/diffutil/merge3.go`. The hunks of both sides are gathered into clusters: a
cluster starts at the next hunk of either side and takes in every hunk that overlaps or touches it.
A cluster of one side, or one on which the sides agree, is taken over; any other is written between
markers.

The two loops have a number of rounds here, which never ends before they do (`grow_spec`,
`mergeFrom_spec`). `merge3_three_way` is the specification: the call returns (no slice is out of
bounds), and the lines of the base, of the two sides and of the result are cut into the same number
of parts, each merged (`Piece.Merged`) or a conflict between markers (`Piece.Conflict`). -/

namespace GitSlice

open List

/-! ## The code -/

/-- The hunks of one side: those of the cluster and those left. -/
structure Side where
  taken : List (LineHunk Bytes)
  left : List (LineHunk Bytes)

/-- A cluster and what is left: `start`, `end`, `fromOurs`, `i`, `fromTheirs` and `j`. -/
structure Cluster where
  start : Nat
  stop : Nat
  ours : Side
  theirs : Side

/-- The hunk a cluster starts at: the first of either side. -/
def firstCluster : List (LineHunk Bytes) → List (LineHunk Bytes) → Option Cluster
  | [], [] => none
  | o :: os, [] => some ⟨o.start, o.stop, ⟨[o], os⟩, ⟨[], []⟩⟩
  | [], t :: ts => some ⟨t.start, t.stop, ⟨[], []⟩, ⟨[t], ts⟩⟩
  | o :: os, t :: ts =>
    if o.start ≤ t.start then some ⟨o.start, o.stop, ⟨[o], os⟩, ⟨[], t :: ts⟩⟩
    else some ⟨t.start, t.stop, ⟨[], o :: os⟩, ⟨[t], ts⟩⟩

/-- The next hunk of a side, if it overlaps the cluster or touches one of the other side; the new
end, and whether the cluster grew. -/
def Side.take (side : Side) (stop : Nat) (other : Bool) : Side × Nat × Bool :=
  match side.left with
  | [] => (side, stop, false)
  | h :: hs =>
    if h.start < stop ∨ (h.start = stop ∧ other) then (⟨side.taken ++ [h], hs⟩, max stop h.stop, true)
    else (side, stop, false)

/-- The loop that lets a cluster grow. -/
def Cluster.grow : Nat → Cluster → Cluster
  | 0, c => c
  | rounds + 1, c =>
    let hasOurs := !c.ours.taken.isEmpty
    let hasTheirs := !c.theirs.taken.isEmpty
    let ours := c.ours.take c.stop hasTheirs
    let theirs := c.theirs.take ours.2.1 hasOurs
    let c := ⟨c.start, theirs.2.1, ours.1, theirs.1⟩
    if ours.2.2 || theirs.2.2 then Cluster.grow rounds c else c

/-- The lines with a newline at the last one. -/
def terminated (lines : List Bytes) : List Bytes :=
  match lines.getLast? with
  | some l => if l.getLast? = some newline then lines else lines.dropLast ++ [l ++ [newline]]
  | none => lines

/-- The bytes of a marker. -/
def ascii (s : String) : Bytes := s.toList.map fun c => c.toNat.toUInt8

/-- A conflict, with the lines of both sides between markers. -/
def conflict (oursLabel theirsLabel : Bytes) (ours theirs : List Bytes) : List Bytes :=
  [ascii "<<<<<<< " ++ oursLabel ++ [newline]] ++ terminated ours ++
    [ascii "=======" ++ [newline]] ++
    terminated theirs ++ [ascii ">>>>>>> " ++ theirsLabel ++ [newline]]

/-- What a cluster becomes, and whether it is clean. -/
def Cluster.resolve (c : Cluster) (oursLabel theirsLabel : Bytes) (ours theirs : List Bytes) :
    List Bytes × Bool :=
  if c.ours.taken = [] then (theirs, true)
  else if c.theirs.taken = [] ∨ ours = theirs then (ours, true)
  else (conflict oursLabel theirsLabel ours theirs, false)

/-- The loop of `Merge3`, from line `pos` of the base. -/
def mergeFrom (base : List Bytes) (oursLabel theirsLabel : Bytes) :
    Nat → Nat → List (LineHunk Bytes) → List (LineHunk Bytes) → Option (List Bytes × Bool)
  | 0, _, _, _ => none
  | rounds + 1, pos, oursHunks, theirsHunks =>
    match firstCluster oursHunks theirsHunks with
    | none => (slice base pos base.length).map fun out => (out, true)
    | some c => do
      let c := c.grow (oursHunks.length + theirsHunks.length)
      let before ← slice base pos c.start
      let ours ← applyHunks base c.start c.stop c.ours.taken
      let theirs ← applyHunks base c.start c.stop c.theirs.taken
      let piece := c.resolve oursLabel theirsLabel ours theirs
      let rest ← mergeFrom base oursLabel theirsLabel rounds c.stop c.ours.left c.theirs.left
      return (before ++ (piece.1 ++ rest.1), piece.2 && rest.2)

/-- `Merge3`: the text, and whether it is free of conflicts. -/
def merge3 (base ours theirs oursLabel theirsLabel : Bytes) : Option (Bytes × Bool) :=
  if ours = theirs ∨ base = theirs then some (ours, true)
  else if base = ours then some (theirs, true)
  else do
    let baseLines := splitLines base
    let oursHunks ← lineHunks baseLines (splitLines ours)
    let theirsHunks ← lineHunks baseLines (splitLines theirs)
    let out ← mergeFrom baseLines oursLabel theirsLabel (oursHunks.length + theirsHunks.length + 1) 0
      oursHunks theirsHunks
    return (out.1.flatten, out.2)

/-! ## Clusters -/

/-- The hunks of a side are in order from the start of the cluster, and those taken stop in it. -/
structure Side.Fits (base : List Bytes) (start stop : Nat) (side : Side) : Prop where
  placed : Placed base start (side.taken ++ side.left)
  inside : ∀ h ∈ side.taken, h.stop ≤ stop

/-- What a side becomes when the cluster grows: the same hunks, of which more are taken. -/
structure Side.Grows (side : Side) (side' : Side) : Prop where
  same : side'.taken ++ side'.left = side.taken ++ side.left
  more : side.taken <+: side'.taken

theorem Side.Grows.refl (side : Side) : side.Grows side := ⟨rfl, prefix_rfl⟩

theorem Side.Grows.trans {side₁ side₂ side₃ : Side} (h : side₁.Grows side₂)
    (h' : side₂.Grows side₃) :
    side₁.Grows side₃ :=
  ⟨h'.same.trans h.same, h.more.trans h'.more⟩

namespace Side

variable {base : List Bytes} {start stop stop' : Nat} {side : Side}

theorem Fits.mono (h : side.Fits base start stop) (hle : stop ≤ stop') :
    side.Fits base start stop' :=
  ⟨h.placed, fun hunk hh => (h.inside hunk hh).trans hle⟩

/-- **Taking a hunk.** -/
theorem take_spec (hfits : side.Fits base start stop) (hstop : stop ≤ base.length) (other : Bool)
    {side' : Side} {grew : Bool} (h : side.take stop other = (side', stop', grew)) :
    side.Grows side' ∧ side'.Fits base start stop' ∧ stop ≤ stop' ∧ stop' ≤ base.length ∧
      (stop' = stop ∨ ∃ hunk ∈ side'.taken, hunk.stop = stop') ∧
      side'.left.length + grew.toNat = side.left.length ∧
      (grew = false → side' = side ∧ stop' = stop ∧
        ∀ hunk ∈ side.left.head?, stop ≤ hunk.start ∧ (other = true → stop ≠ hunk.start)) := by
  obtain ⟨taken, left⟩ := side
  cases left with
  | nil =>
    cases h
    exact ⟨Grows.refl _, hfits, le_refl _, hstop, .inl rfl, rfl, fun _ => ⟨rfl, rfl, nofun⟩⟩
  | cons hunk hs =>
    simp only [take] at h
    split_ifs at h with htouch
    · cases h
      have hbounds := hfits.placed.bounds hunk (by simp)
      refine ⟨⟨by simp, prefix_append _ _⟩, ⟨?_, ?_⟩, le_max_left _ _, ?_, ?_, rfl, nofun⟩
      · have hplaced := hfits.placed
        simpa using hplaced
      · exact forall_mem_append.mpr
          ⟨fun h hh => (hfits.inside h hh).trans (le_max_left _ _), by simp⟩
      · omega
      · rcases Nat.le_total hunk.stop stop with hle | hle
        · exact .inl (max_eq_left hle)
        · exact .inr ⟨hunk, by simp, (max_eq_right hle).symm⟩
    · cases h
      refine ⟨Grows.refl _, hfits, le_refl _, hstop, .inl rfl, rfl, fun _ => ⟨rfl, rfl, ?_⟩⟩
      intro h hh
      cases hh
      rw [not_or] at htouch
      refine ⟨by omega, fun hother heq => htouch.2 ⟨heq.symm, hother⟩⟩

end Side

namespace Cluster

variable {base : List Bytes}

/-- The cluster holds the hunks taken, and stops where one of them does. -/
structure Holds (base : List Bytes) (c : Cluster) : Prop where
  ours : c.ours.Fits base c.start c.stop
  theirs : c.theirs.Fits base c.start c.stop
  le : c.start ≤ c.stop
  bound : c.stop ≤ base.length
  last : (∃ h ∈ c.ours.taken, h.stop = c.stop) ∨ ∃ h ∈ c.theirs.taken, h.stop = c.stop

theorem left_after {start stop : Nat} {side other : Side} (hfits : side.Fits base start stop)
    (hlast : (∃ h ∈ side.taken, h.stop = stop) ∨ ∃ h ∈ other.taken, h.stop = stop)
    (hnext : ∀ h ∈ side.left.head?, stop ≤ h.start ∧
      ((!other.taken.isEmpty) = true → stop ≠ h.start)) :
    ∀ h ∈ side.left, stop < h.start := by
  rcases hlast with ⟨h', hh', rfl⟩ | ⟨h', hh', -⟩
  · exact fun h hh => (pairwise_append.mp hfits.placed.apart).2.2 h' hh' h hh
  · -- a hunk of the other side is taken, so the next one does not touch the cluster
    cases hside : side.left with
    | nil => exact nofun
    | cons hunk hs =>
      have hleft := hfits.placed.sublist (sublist_append_right side.taken side.left)
      rw [hside] at hleft hnext
      obtain ⟨hle, hne⟩ := hnext hunk rfl
      have hother : (!other.taken.isEmpty) = true := by simpa using ne_nil_of_mem hh'
      exact fun h hh => (lt_of_le_of_ne hle (hne hother)).trans_le (hleft.first_le hh)

/-- **A grown cluster** holds the hunks it took in, and the hunks left come after it. -/
theorem grow_spec {rounds : Nat} {c : Cluster} (h : c.Holds base)
    (hrounds : c.ours.left.length + c.theirs.left.length < rounds) :
    (c.grow rounds).Holds base ∧ (c.grow rounds).start = c.start ∧
      c.ours.Grows (c.grow rounds).ours ∧
      c.theirs.Grows (c.grow rounds).theirs ∧
        (∀ h ∈ (c.grow rounds).ours.left, (c.grow rounds).stop < h.start) ∧
      ∀ h ∈ (c.grow rounds).theirs.left, (c.grow rounds).stop < h.start := by
  induction rounds generalizing c with
  | zero => omega
  | succ rounds ih =>
    rcases ho : c.ours.take c.stop (!c.theirs.taken.isEmpty) with ⟨ours, stop₁, grew₁⟩
    rcases ht : c.theirs.take stop₁ (!c.ours.taken.isEmpty) with ⟨theirs, stop₂, grew₂⟩
    obtain ⟨hours, hoursFits, hle₁, hbound₁, hlast₁, hlen₁, hnot₁⟩ :=
      Side.take_spec h.ours h.bound _ ho
    obtain ⟨htheirs, htheirsFits, hle₂, hbound₂, hlast₂, hlen₂, hnot₂⟩ :=
      Side.take_spec (h.theirs.mono hle₁) hbound₁ _ ht
    have hgrow : c.grow (rounds + 1) =
        if grew₁ || grew₂ then grow rounds ⟨c.start, stop₂, ours, theirs⟩ else ⟨c.start, stop₂, ours, theirs⟩ := by
      rw [grow]
      simp only [ho, ht]
    have hlast : (∃ h ∈ ours.taken, h.stop = stop₂) ∨ ∃ h ∈ theirs.taken, h.stop = stop₂ := by
      rcases hlast₂ with rfl | hlast₂
      · rcases hlast₁ with rfl | hlast₁
        · exact h.last.imp (fun ⟨h, hh, heq⟩ => ⟨h, hours.more.subset hh, heq⟩)
            fun ⟨h, hh, heq⟩ => ⟨h, htheirs.more.subset hh, heq⟩
        · exact .inl hlast₁
      · exact .inr hlast₂
    have hholds : Holds base ⟨c.start, stop₂, ours, theirs⟩ :=
      ⟨hoursFits.mono hle₂, htheirsFits, h.le.trans (hle₁.trans hle₂), hbound₂, hlast⟩
    rw [hgrow]
    split_ifs with hgrew
    · have hless : ours.left.length + theirs.left.length <
          c.ours.left.length + c.theirs.left.length := by
        rcases Bool.or_eq_true_iff.mp hgrew with rfl | rfl
        · rw [Bool.toNat_true] at hlen₁
          omega
        · rw [Bool.toNat_true] at hlen₂
          omega
      obtain ⟨hholds', hstart, hours', htheirs', hafter⟩ := ih hholds (by simp only; omega)
      exact ⟨hholds', hstart, hours.trans hours', htheirs.trans htheirs', hafter⟩
    · simp only [Bool.or_eq_true, not_or, Bool.not_eq_true] at hgrew
      obtain ⟨rfl, rfl, hnext₁⟩ := hnot₁ hgrew.1
      obtain ⟨rfl, rfl, hnext₂⟩ := hnot₂ hgrew.2
      exact ⟨hholds, rfl, hours, htheirs, left_after hholds.ours hholds.last hnext₁,
        left_after hholds.theirs hholds.last.symm hnext₂⟩

theorem Holds.swap {c : Cluster} (h : c.Holds base) :
    Holds base ⟨c.start, c.stop, c.theirs, c.ours⟩ :=
  ⟨h.theirs, h.ours, h.le, h.bound, h.last.symm⟩

theorem holds_first {pos : Nat} {hunk : LineHunk Bytes} {hs hs' : List (LineHunk Bytes)}
    (hp : Placed base pos (hunk :: hs)) (hp' : Placed base pos hs')
    (hfirst : ∀ h ∈ hs'.head?, hunk.start ≤ h.start) :
    Holds base ⟨hunk.start, hunk.stop, ⟨[hunk], hs⟩, [], hs'⟩ ∧ pos ≤ hunk.start := by
  obtain ⟨hpos, hle, hbound⟩ := hp.bounds hunk mem_cons_self
  refine ⟨⟨⟨hp.of_le fun h hh => hp.first_le hh, by simp⟩, ⟨hp'.of_le ?_, nofun⟩, hle, hbound,
    .inl ⟨hunk, mem_cons_self, rfl⟩⟩, hpos⟩
  cases hs' with
  | nil => exact nofun
  | cons first hs' => exact fun h hh => (hfirst first rfl).trans (hp'.first_le hh)

/-- **The first cluster** starts before every hunk, with one of them. -/
theorem firstCluster_spec {pos : Nat} {os ts : List (LineHunk Bytes)} {c : Cluster}
    (ho : Placed base pos os) (ht : Placed base pos ts) (h : firstCluster os ts = some c) :
    c.Holds base ∧ pos ≤ c.start ∧ c.ours.taken ++ c.ours.left = os ∧
      c.theirs.taken ++ c.theirs.left = ts ∧
      c.ours.left.length + c.theirs.left.length < os.length + ts.length := by
  cases os with
  | nil =>
    cases ts with
    | nil => cases h
    | cons t ts =>
      cases h
      obtain ⟨hholds, hpos⟩ := holds_first ht ho nofun
      exact ⟨hholds.swap, hpos, rfl, rfl, by simp⟩
  | cons o os =>
    cases ts with
    | nil =>
      cases h
      obtain ⟨hholds, hpos⟩ := holds_first ho ht nofun
      exact ⟨hholds, hpos, rfl, rfl, by simp⟩
    | cons t ts =>
      rw [firstCluster] at h
      split_ifs at h with hle
      · cases h
        obtain ⟨hholds, hpos⟩ := holds_first ho ht (by simpa using hle)
        exact ⟨hholds, hpos, rfl, rfl, by simp⟩
      · cases h
        obtain ⟨hholds, hpos⟩ := holds_first ht ho (by simp; omega)
        refine ⟨hholds.swap, hpos, rfl, rfl, ?_⟩
        simp only [length_cons]
        omega

end Cluster

/-! ## The parts of a merge -/

/-- A part of the lines of the base, of the two sides and of the result. -/
structure Piece where
  base : List Bytes
  ours : List Bytes
  theirs : List Bytes
  result : List Bytes

namespace Piece

/-- At most one side changed the part, or both agree on it, and the result follows. -/
structure Merged (p : Piece) : Prop where
  ours_unchanged : p.ours = p.base → p.result = p.theirs
  theirs_unchanged : p.theirs = p.base → p.result = p.ours
  agreed : p.ours = p.theirs → p.result = p.ours
  cases : p.ours = p.base ∨ p.theirs = p.base ∨ p.ours = p.theirs

/-- Both sides changed the part, to different lines, and the result has both between markers. -/
structure Conflict (oursLabel theirsLabel : Bytes) (p : Piece) : Prop where
  ours_changed : p.ours ≠ p.base
  theirs_changed : p.theirs ≠ p.base
  differ : p.ours ≠ p.theirs
  markers : p.result = splitLines (conflict oursLabel theirsLabel p.ours p.theirs).flatten

theorem Conflict.not_merged {oursLabel theirsLabel : Bytes} {p : Piece}
    (h : p.Conflict oursLabel theirsLabel) : ¬ p.Merged := by
  intro hm
  rcases hm.cases with heq | heq | heq
  · exact h.ours_changed heq
  · exact h.theirs_changed heq
  · exact h.differ heq

/-- The result is a side that agrees with the other, or the other did not change. -/
theorem merged_ours {base ours theirs : List Bytes} (h : theirs = base ∨ ours = theirs) :
    Merged ⟨base, ours, theirs, ours⟩ := by
  refine ⟨fun hours => ?_, fun _ => rfl, fun _ => rfl, .inr h⟩
  rcases h with htheirs | h
  · exact hours.trans htheirs.symm
  · exact h

theorem merged_theirs {base theirs : List Bytes} : Merged ⟨base, base, theirs, theirs⟩ :=
  ⟨fun _ => rfl, id, Eq.symm, .inl rfl⟩

/-- A part that nobody changed. -/
def same (lines : List Bytes) : Piece := ⟨lines, lines, lines, lines⟩

theorem merged_same (lines : List Bytes) : (same lines).Merged := merged_theirs

end Piece

/-- The lines of the base, of the sides and of the result, cut into parts that are merged or
conflicts; the merge is clean if all are merged. -/
structure ThreeWay (oursLabel theirsLabel : Bytes) (base ours theirs result : List Bytes) (clean : Bool)
    (pieces : List Piece) : Prop where
  base_eq : pieces.flatMap Piece.base = base
  ours_eq : pieces.flatMap Piece.ours = ours
  theirs_eq : pieces.flatMap Piece.theirs = theirs
  result_eq : pieces.flatMap Piece.result = result
  settled : ∀ p ∈ pieces, p.Merged ∨ p.Conflict oursLabel theirsLabel
  clean_iff : clean = true ↔ ∀ p ∈ pieces, p.Merged

namespace ThreeWay

variable {oursLabel theirsLabel : Bytes} {base ours theirs result : List Bytes} {clean : Bool}
  {pieces : List Piece}

theorem nil (oursLabel theirsLabel : Bytes) : ThreeWay oursLabel theirsLabel [] [] [] [] true [] :=
  ⟨rfl, rfl, rfl, rfl, nofun, by simp⟩

variable {p : Piece}

theorem cons (h : ThreeWay oursLabel theirsLabel base ours theirs result clean pieces)
    {merged : Bool}
    (hp : (merged = true ∧ p.Merged) ∨ (merged = false ∧ p.Conflict oursLabel theirsLabel)) :
    ThreeWay oursLabel theirsLabel (p.base ++ base) (p.ours ++ ours) (p.theirs ++ theirs)
      (p.result ++ result) (merged && clean) (p :: pieces) := by
  refine ⟨?_, ?_, ?_, ?_, ?_, ?_⟩
  · rw [flatMap_cons, h.base_eq]
  · rw [flatMap_cons, h.ours_eq]
  · rw [flatMap_cons, h.theirs_eq]
  · rw [flatMap_cons, h.result_eq]
  · exact forall_mem_cons.mpr ⟨hp.imp And.right And.right, h.settled⟩
  · rw [forall_mem_cons, ← h.clean_iff, Bool.and_eq_true]
    refine and_congr_left fun _ => ?_
    rcases hp with ⟨rfl, hp⟩ | ⟨rfl, hp⟩
    · exact iff_of_true rfl hp
    · exact iff_of_false Bool.false_ne_true hp.not_merged

theorem single (hp : p.Merged) :
    ThreeWay oursLabel theirsLabel p.base p.ours p.theirs p.result true [p] := by
  have h := (nil oursLabel theirsLabel).cons (.inl ⟨rfl, hp⟩)
  simpa only [append_nil, Bool.and_true] using h

end ThreeWay

/-! ## The loop -/

/-- The lines of a file, or a part of them. -/
def IsLines (lines : List Bytes) : Prop := ∃ data, splitLines data = lines

variable {front back : List Bytes} {base : List Bytes}

theorem IsLines.left (h : IsLines (front ++ back)) : IsLines front :=
  ⟨_, (splitLines_parts front h.choose_spec).1⟩

theorem IsLines.right (h : IsLines (front ++ back)) : IsLines back :=
  ⟨_, (splitLines_parts front h.choose_spec).2.1⟩

theorem IsLines.ended (h : IsLines (front ++ back)) (hback : back ≠ []) : Ended front.flatten :=
  (splitLines_parts front h.choose_spec).2.2 hback

variable {lines : List Bytes}

theorem IsLines.splitLines_eq (h : IsLines lines) : splitLines lines.flatten = lines := by
  obtain ⟨data, rfl⟩ := h
  rw [flatten_splitLines]

theorem ended_conflict (oursLabel theirsLabel : Bytes) (ours theirs : List Bytes) :
    Ended (conflict oursLabel theirsLabel ours theirs).flatten := by
  refine .inr ?_
  simp only [conflict, flatten_append, flatten_cons, flatten_nil, append_nil,
    ← append_assoc]
  exact List.getLast?_concat

/-- Lines of which the last ends with a newline, too. -/
def Whole (lines : List Bytes) : Prop := IsLines lines ∧ Ended lines.flatten

theorem Whole.isLines_append (h : Whole front) (hback : IsLines back) :
    IsLines (front ++ back) := by
  refine ⟨(front ++ back).flatten, ?_⟩
  rw [flatten_append, splitLines_append h.2, h.1.splitLines_eq, hback.splitLines_eq]

theorem Whole.append (h : Whole front) (hback : Whole back) : Whole (front ++ back) := by
  refine ⟨h.isLines_append hback.1, ?_⟩
  rw [flatten_append]
  rcases hback.2 with hnil | hlast
  · rw [hnil, append_nil]
    exact h.2
  · exact .inr (by rw [List.getLast?_append, hlast]; rfl)

theorem whole_text {text : Bytes} (h : newline ∉ text) : Whole [text ++ [newline]] := by
  refine ⟨⟨text ++ [newline], ?_⟩, .inr (by simp)⟩
  induction text with
  | nil => rfl
  | cons c text ih =>
    rw [mem_cons, not_or] at h
    rw [cons_append, splitLines_cons (Ne.symm h.1), ih h.2]

theorem newline_notMem {l : Bytes} (h : splitLines l = [l]) (hlast : l.getLast? ≠ some newline) :
    newline ∉ l := by
  intro hmem
  obtain ⟨front, back, rfl⟩ := append_of_mem hmem
  have hback : splitLines back ≠ [] := by
    rw [Ne, splitLines_eq_nil]
    rintro rfl
    exact hlast List.getLast?_concat
  have hfront : splitLines (front ++ [newline]) ≠ [] := by
    rw [Ne, splitLines_eq_nil]
    simp
  rw [append_cons, splitLines_append (.inr List.getLast?_concat)] at h
  have hlen := congrArg List.length h
  have := length_pos_iff.mpr hback
  have := length_pos_iff.mpr hfront
  rw [length_append, length_singleton] at hlen
  omega

theorem whole_terminated (h : IsLines lines) : Whole (terminated lines) := by
  unfold terminated
  rcases eq_nil_or_concat' lines with rfl | ⟨front, l, rfl⟩
  · exact ⟨h, .inl rfl⟩
  · rw [List.getLast?_concat]
    dsimp only
    split_ifs with hlast
    · exact ⟨h, .inr (by simp [hlast])⟩
    · have hl := h.right.splitLines_eq
      rw [flatten_singleton] at hl
      rw [dropLast_concat]
      exact Whole.append ⟨h.left, h.ended (cons_ne_nil _ _)⟩ (whole_text (newline_notMem hl hlast))

theorem whole_conflict {oursLabel theirsLabel : Bytes} {ours theirs : List Bytes}
    (ho : IsLines ours) (ht : IsLines theirs) (hol : newline ∉ oursLabel)
    (htl : newline ∉ theirsLabel) :
    Whole (conflict oursLabel theirsLabel ours theirs) := by
  have hmark : ∀ (mark : Bytes) {label : Bytes}, newline ∉ mark → newline ∉ label →
      Whole [mark ++ label ++ [newline]] := by
    intro mark label hm hl
    exact whole_text (by simp [hm, hl])
  have hours := (hmark (ascii "<<<<<<< ") (by decide) hol).append (whole_terminated ho)
  have hmiddle := hours.append (show Whole [ascii "=======" ++ [newline]] from whole_text (by decide))
  exact (hmiddle.append (whole_terminated ht)).append (hmark (ascii ">>>>>>> ") (by decide) htl)

/-- A side of a cluster: the range with its hunks made and what comes after, and whether it
changed. -/
structure SideParts (base : List Bytes) (pos : Nat) (c : Cluster) (side : Side) : Prop where
  applied : applyHunks base c.start c.stop side.taken =
    some (patched base c.start c.stop side.taken)
  all : patched base pos base.length (side.taken ++ side.left) =
    span base pos c.start ++
      (patched base c.start c.stop side.taken ++ patched base c.stop base.length side.left)
  changed : side.taken ≠ [] → patched base c.start c.stop side.taken ≠ span base c.start c.stop
  unchanged : side.taken = [] → patched base c.start c.stop side.taken = span base c.start c.stop
  left : Placed base c.stop side.left
  tight : Tight base side.left
  rest : c.stop < base.length → patched base c.stop base.length side.left ≠ []
  last : c.stop = base.length → side.left = []

variable {pos : Nat} {c : Cluster}

theorem sideParts {side : Side} (hfits : side.Fits base c.start c.stop)
    (hpos : pos ≤ c.start) (hle : c.start ≤ c.stop) (hbound : c.stop ≤ base.length)
    (hafter : ∀ h ∈ side.left, c.stop < h.start) (htight : Tight base (side.taken ++ side.left)) :
    SideParts base pos c side := by
  have htaken := hfits.placed.sublist (sublist_append_left side.taken side.left)
  have hleft := hfits.placed.sublist (sublist_append_right side.taken side.left)
  refine ⟨applyHunks_eq htaken hfits.inside hle hbound, ?_, ?_, ?_, ?_, htight.of_append, ?_, ?_⟩
  · rw [patched_skip base hpos (hle.trans hbound) fun h hh => (hfits.placed.bounds h hh).1,
      patched_append base hle hbound hfits.inside fun h hh => (hafter h hh).le]
  · intro hne
    refine htight (nil_append (side.taken ++ side.left)).symm hne hbound ?_
    intro h hh
    exact ⟨(htaken.bounds h hh).1, hfits.inside h hh⟩
  · intro hnil
    rw [hnil]
    rfl
  · exact hleft.of_le fun h hh => (hafter h hh).le
  · intro hlt hnil
    rw [patched_skip base (Nat.le_succ c.stop) hlt hafter, append_eq_nil_iff, ← length_eq_zero_iff,
      length_span hlt] at hnil
    omega
  · intro heq
    refine eq_nil_iff_forall_not_mem.mpr fun h hh => ?_
    have := hafter h hh
    have := hleft.bounds h hh
    omega

theorem Cluster.resolve_spec (oursLabel theirsLabel : Bytes)
    (ho : SideParts base pos c c.ours) (ht : SideParts base pos c c.theirs)
    (hoursLines : IsLines (patched base c.start c.stop c.ours.taken))
    (htheirsLines : IsLines (patched base c.start c.stop c.theirs.taken)) {out : List Bytes}
    {merged : Bool} (h : c.resolve oursLabel theirsLabel (patched base c.start c.stop c.ours.taken)
      (patched base c.start c.stop c.theirs.taken) = (out, merged)) :
    let p : Piece := ⟨span base c.start c.stop, patched base c.start c.stop c.ours.taken,
      patched base c.start c.stop c.theirs.taken, splitLines out.flatten⟩
    ((merged = true ∧ p.Merged) ∨ (merged = false ∧ p.Conflict oursLabel theirsLabel)) ∧
      (Ended out.flatten ∨ out = patched base c.start c.stop c.ours.taken ∨
        out = patched base c.start c.stop c.theirs.taken) ∧
      (newline ∉ oursLabel → newline ∉ theirsLabel → IsLines out) := by
  rw [resolve] at h
  split_ifs at h with hours htheirs
  · cases h
    refine ⟨.inl ⟨rfl, ?_⟩, .inr (.inr rfl), fun _ _ => htheirsLines⟩
    rw [htheirsLines.splitLines_eq, ho.unchanged hours]
    exact Piece.merged_theirs
  · cases h
    refine ⟨.inl ⟨rfl, ?_⟩, .inr (.inl rfl), fun _ _ => hoursLines⟩
    rw [hoursLines.splitLines_eq]
    exact Piece.merged_ours (htheirs.imp ht.unchanged id)
  · cases h
    rw [not_or] at htheirs
    exact ⟨.inr ⟨rfl, ho.changed hours, ht.changed htheirs.1, htheirs.2, rfl⟩,
      .inl (ended_conflict _ _ _ _), fun hol htl => (whole_conflict hoursLines htheirsLines hol htl).1⟩

theorem splitLines_join {out rest : List Bytes} (h : Ended out.flatten ∨ rest = []) :
    splitLines (out.flatten ++ rest.flatten) =
      splitLines out.flatten ++ splitLines rest.flatten := by
  rcases h with h | rfl
  · exact splitLines_append h _
  · simp

/-- The lines before a cluster end with a newline: the cluster replaces or inserts something. -/
theorem gap_ended (h : c.Holds base) (ho : SideParts base pos c c.ours)
    (ht : SideParts base pos c c.theirs) {gap base' ours' theirs' : List Bytes}
    (hbase : IsLines (gap ++ (span base c.start c.stop ++ base')))
    (hours : IsLines (gap ++ (patched base c.start c.stop c.ours.taken ++ ours')))
    (htheirs : IsLines (gap ++ (patched base c.start c.stop c.theirs.taken ++ theirs'))) :
    Ended gap.flatten := by
  have hside : ∀ {side : Side} {lines : List Bytes}, SideParts base pos c side → side.taken ≠ [] →
      IsLines (gap ++ (patched base c.start c.stop side.taken ++ lines)) → Ended gap.flatten := by
    intro side lines hparts hne hlines
    have hchanged := hparts.changed hne
    by_cases hspan : span base c.start c.stop = []
    · rw [hspan] at hchanged
      exact hlines.ended (append_ne_nil_of_left_ne_nil hchanged _)
    · exact hbase.ended (append_ne_nil_of_left_ne_nil hspan _)
  rcases h.last with ⟨hunk, hh, -⟩ | ⟨hunk, hh, -⟩
  · exact hside ho (ne_nil_of_mem hh) hours
  · exact hside ht (ne_nil_of_mem hh) htheirs

variable {rounds : Nat}

theorem Cluster.Holds.left_lt (h : c.Holds base)
    (hrounds : (c.ours.taken ++ c.ours.left).length + (c.theirs.taken ++ c.theirs.left).length <
      rounds + 1) :
    c.ours.left.length + c.theirs.left.length < rounds := by
  rw [length_append, length_append] at hrounds
  rcases h.last with ⟨hunk, hh, -⟩ | ⟨hunk, hh, -⟩
  · have := length_pos_of_mem hh
    omega
  · have := length_pos_of_mem hh
    omega

variable {os ts : List (LineHunk Bytes)}

theorem firstCluster_eq_none (h : firstCluster os ts = none) : os = [] ∧ ts = [] := by
  unfold firstCluster at h
  split at h
  · exact ⟨rfl, rfl⟩
  · cases h
  · cases h
  · split_ifs at h

theorem mergeFrom_nil (oursLabel theirsLabel : Bytes) (hpos : pos ≤ base.length)
    (hrounds : 0 < rounds) :
    mergeFrom base oursLabel theirsLabel rounds pos [] [] =
      some (span base pos base.length, true) := by
  obtain ⟨rounds, rfl⟩ := Nat.exists_eq_succ_of_ne_zero hrounds.ne'
  show (slice base pos base.length).map _ = _
  rw [slice_eq hpos (le_refl _)]
  rfl

theorem mergeFrom_cluster {oursLabel theirsLabel : Bytes} {c₀ : Cluster}
    (h : firstCluster os ts = some c₀) (hc : c₀.grow (os.length + ts.length) = c)
    {before ours theirs : List Bytes} {rest : List Bytes × Bool}
    (hbefore : slice base pos c.start = some before)
    (hours : applyHunks base c.start c.stop c.ours.taken = some ours)
    (htheirs : applyHunks base c.start c.stop c.theirs.taken = some theirs)
    (hrest : mergeFrom base oursLabel theirsLabel rounds c.stop c.ours.left c.theirs.left = some rest) :
    mergeFrom base oursLabel theirsLabel (rounds + 1) pos os ts =
      some (before ++ ((c.resolve oursLabel theirsLabel ours theirs).1 ++ rest.1),
        (c.resolve oursLabel theirsLabel ours theirs).2 && rest.2) := by
  unfold mergeFrom
  simp only [h, hc, hbefore, hours, htheirs, hrest]
  rfl

/-- **The loop of `Merge3`** merges what is left. -/
theorem mergeFrom_spec (oursLabel theirsLabel : Bytes) (ho : Placed base pos os)
    (ht : Placed base pos ts) (hoTight : Tight base os) (htTight : Tight base ts)
    (hpos : pos ≤ base.length) (hrounds : os.length + ts.length < rounds)
    (hbase : IsLines (span base pos base.length))
    (hours : IsLines (patched base pos base.length os))
    (htheirs : IsLines (patched base pos base.length ts)) :
    ∃ out clean pieces, mergeFrom base oursLabel theirsLabel rounds pos os ts = some (out, clean) ∧
      ThreeWay oursLabel theirsLabel (span base pos base.length) (patched base pos base.length os)
        (patched base pos base.length ts) (splitLines out.flatten) clean pieces ∧
      (newline ∉ oursLabel → newline ∉ theirsLabel → IsLines out) := by
  induction rounds generalizing pos os ts with
  | zero => omega
  | succ rounds ih =>
    cases hfirst : firstCluster os ts with
    | none =>
      obtain ⟨rfl, rfl⟩ := firstCluster_eq_none hfirst
      refine ⟨_, _, [Piece.same (span base pos base.length)],
        mergeFrom_nil oursLabel theirsLabel hpos hrounds, ?_, fun _ _ => hbase⟩
      rw [hbase.splitLines_eq]
      exact ThreeWay.single (Piece.merged_same _)
    | some c₀ =>
      obtain ⟨hholds₀, hstart₀, hos, hts, hleft⟩ := Cluster.firstCluster_spec ho ht hfirst
      obtain ⟨hholds, hstart, hoursGrows, htheirsGrows, hoursAfter, htheirsAfter⟩ :=
        Cluster.grow_spec hholds₀ hleft
      generalize hc : c₀.grow (os.length + ts.length) = c at *
      rw [← hoursGrows.same] at hos
      rw [← htheirsGrows.same] at hts
      subst hos hts
      have hp : pos ≤ c.start := hstart ▸ hstart₀
      have hoursParts := sideParts hholds.ours hp hholds.le hholds.bound hoursAfter hoTight
      have htheirsParts := sideParts hholds.theirs hp hholds.le hholds.bound htheirsAfter htTight
      have hspan : span base pos base.length =
          span base pos c.start ++ (span base c.start c.stop ++ span base c.stop base.length) := by
        rw [span_append_span base hholds.le hholds.bound,
          span_append_span base hp (hholds.le.trans hholds.bound)]
      rw [hoursParts.all] at hours ⊢
      rw [htheirsParts.all] at htheirs ⊢
      rw [hspan] at hbase ⊢
      obtain ⟨rest, clean, pieces, hrest, hthree, hrestLines⟩ :=
        ih hoursParts.left htheirsParts.left hoursParts.tight
        htheirsParts.tight hholds.bound (hholds.left_lt hrounds) hbase.right.right hours.right.right
        htheirs.right.right
      rcases hres : c.resolve oursLabel theirsLabel (patched base c.start c.stop c.ours.taken)
        (patched base c.start c.stop c.theirs.taken) with ⟨out, merged⟩
      obtain ⟨hpiece, hended, hout⟩ := Cluster.resolve_spec oursLabel theirsLabel hoursParts htheirsParts
        hours.right.left htheirs.right.left hres
      have hjoin : Ended out.flatten ∨ rest = [] := by
        rcases hended with hended | hended
        · exact .inl hended
        · rcases hholds.bound.lt_or_eq with hlt | heq
          · refine .inl ?_
            rcases hended with rfl | rfl
            · exact hours.right.ended (hoursParts.rest hlt)
            · exact htheirs.right.ended (htheirsParts.rest hlt)
          · -- nothing comes after the end of the base
            refine .inr ?_
            rw [hoursParts.last heq, htheirsParts.last heq, heq] at hrest
            have hnil := mergeFrom_nil oursLabel theirsLabel (le_refl base.length)
              (Nat.zero_lt_of_lt (hholds.left_lt hrounds))
            rw [span_self] at hnil
            exact congrArg Prod.fst (Option.some.inj (hrest.symm.trans hnil))
      have hresult : splitLines (span base pos c.start ++ (out ++ rest)).flatten =
          span base pos c.start ++ (splitLines out.flatten ++ splitLines rest.flatten) := by
        rw [flatten_append, splitLines_append (gap_ended hholds hoursParts htheirsParts hbase hours htheirs),
          hbase.left.splitLines_eq, flatten_append, splitLines_join hjoin]
      have hall := (hthree.cons hpiece).cons (.inl ⟨rfl, Piece.merged_same (span base pos c.start)⟩)
      rw [Bool.true_and, show (Piece.same (span base pos c.start)).result = span base pos c.start from rfl,
        ← hresult] at hall
      refine ⟨_, _, _, ?_, hall, fun hol htl => ⟨_, hresult.trans ?_⟩⟩
      swap
      · rw [(hout hol htl).splitLines_eq, (hrestLines hol htl).splitLines_eq]
      rw [mergeFrom_cluster hfirst hc (slice_eq hp (hholds.le.trans hholds.bound)) hoursParts.applied
        htheirsParts.applied hrest, hres]

/-! ## The specification -/

/-- **`Merge3` is a three-way merge.** Every call returns, so all slice bounds hold; and the lines
of the base, the sides and the result are cut into parts, each of which is merged or a conflict. The
merge is clean if and only if all parts are merged. -/
theorem merge3_three_way (base ours theirs oursLabel theirsLabel : Bytes) :
    ∃ merged clean pieces, merge3 base ours theirs oursLabel theirsLabel = some (merged, clean) ∧
      ThreeWay oursLabel theirsLabel (splitLines base) (splitLines ours) (splitLines theirs)
        (splitLines merged) clean pieces := by
  rw [merge3]
  split_ifs with hours htheirs
  · have hmerged : Piece.Merged
        ⟨splitLines base, splitLines ours, splitLines theirs, splitLines ours⟩ := by
      refine Piece.merged_ours ?_
      rcases hours with rfl | rfl
      · exact .inr rfl
      · exact .inl rfl
    exact ⟨_, _, _, rfl, ThreeWay.single hmerged⟩
  · subst htheirs
    exact ⟨_, _, _, rfl, ThreeWay.single Piece.merged_theirs⟩
  · obtain ⟨os, hos, hoPlaced, hoPatched, hoTight⟩ :=
      lineHunks_spec (splitLines base) (splitLines ours)
    obtain ⟨ts, hts, htPlaced, htPatched, htTight⟩ :=
      lineHunks_spec (splitLines base) (splitLines theirs)
    obtain ⟨out, clean, pieces, hrun, hthree, -⟩ :=
      mergeFrom_spec oursLabel theirsLabel hoPlaced htPlaced hoTight
      htTight (Nat.zero_le _) (Nat.lt_succ_self _) ⟨base, (span_all _).symm⟩ ⟨ours, hoPatched.symm⟩
      ⟨theirs, htPatched.symm⟩
    rw [span_all, hoPatched, htPatched] at hthree
    refine ⟨out.flatten, clean, pieces, ?_, hthree⟩
    simp only [hos, hts, hrun, Option.bind_eq_bind, Option.bind_some]
    rfl

end GitSlice
