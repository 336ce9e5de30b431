import GitSlice.Library.Infix
import GitSlice.Cli.WorkspacePaths

/-! # Coverage of paths
Which slices cover a path is found in three ways: `paths.Contains` compares texts,
`AncestorPrefixes` lists the prefixes of a path, and `AssembleCoverageByPath` looks each of them up.
On canonical texts the three are one relation, that of the segments (`coverage_one_relation`). The
tree store splits a path in a fourth way, `splitPath`, which trims white space first: it tells apart
the canonical paths that do not end in white space. -/

namespace GitSlice.Coverage

open List WorkspacePaths

/-- `paths.CanonicalPrefix`. -/
def canonicalPrefixText (p : String) : Except String String := (canonicalize p).map renderPath

/-- `paths.Canonical`. -/
def canonicalText (p : String) : Except String String := (canonicalPath p).map renderPath

/-- One segment in `path.Clean` of a path that is not rooted: `..` stays where nothing is before
it. -/
def cleanRelativeStep (segments : Path) (segment : List Char) : Path :=
  if segment = ['.', '.'] ∧ segments.getLast?.all (· = "..") then segments ++ [".."]
  else cleanStep segments segment

/-- The segments of `path.Clean`. -/
def cleanSegments (s : String) : Path :=
  if ['/'].isPrefixOf s.toList then cleanRooted s else (s.toList.splitOn '/').foldl cleanRelativeStep []

/-- The loop of `AncestorPrefixes`, after the segments `current`. -/
def ancestorsFrom (current : Path) : Path → List String
  | [] => []
  | segment :: rest => renderPath (current ++ [segment]) :: ancestorsFrom (current ++ [segment]) rest

/-- `AncestorPrefixes`. Of the segments it refuses, only `..` is left in a clean path. -/
def ancestorPrefixes (p : String) : List String :=
  let segments := cleanSegments (slashed p)
  if ".." ∈ segments then [] else ancestorsFrom [] segments

/-- The prefixes that the slices are looked up for. -/
def coveragePrefixUnion (changedPaths : List String) : List String :=
  (changedPaths.flatMap ancestorPrefixes).dedup.insertionSort (· ≤ ·)

/-- `AssembleCoverageByPath`: the slices of a path's prefixes, each once and sorted. -/
def assembleCoverageByPath (changedPaths : List String) (prefixSliceIDs : String → List String) :
    Table String (List String) :=
  .ofRows (changedPaths.map fun p =>
    (p, ((ancestorPrefixes p).flatMap prefixSliceIDs).dedup.insertionSort (· ≤ ·)))

/-- `treestore.splitPath`. -/
def splitPathText (p : String) : Except String (List String) :=
  let p := trimSpace p
  if p = "" ∨ p = "/" then .ok []
  else if ['/'].isPrefixOf p.toList then .ok (cleanRooted p)
  else .error ("path must be absolute: " ++ p)

/-! ## Canonical texts -/

variable {p q s c : String} {a b : Path}

theorem map_renderPath_eq_ok {x : Except String Path} (h : x.map renderPath = .ok c) :
    ∃ a, x = .ok a ∧ renderPath a = c := by
  cases x with
  | error => cases h
  | ok a => exact ⟨a, rfl, Except.ok.inj h⟩

theorem canonicalPrefixText_ok (h : canonicalPrefixText p = .ok c) :
    ∃ a, Segments a ∧ renderPath a = c := by
  obtain ⟨a, ha, rfl⟩ := map_renderPath_eq_ok h
  exact ⟨a, canonicalize_ok ha, rfl⟩

theorem canonicalText_ok (h : canonicalText p = .ok c) :
    canonicalText c = .ok c ∧ canonicalPrefixText c = .ok c := by
  obtain ⟨a, ha, rfl⟩ := map_renderPath_eq_ok h
  obtain ⟨b, hb, hlen⟩ := Except.bind_eq_ok.mp ha
  split_ifs at hlen with hshort
  cases hlen
  have hseg := canonicalize_ok hb
  rw [canonicalText, canonicalPrefixText, canonicalPath_renderPath hseg.valid hseg.ne_nil hseg.slashed,
    if_neg hshort, canonicalize_renderPath hseg.valid hseg.ne_nil hseg.slashed]
  exact ⟨rfl, rfl⟩

/-! ## One relation -/

theorem mem_ancestorsFrom :
    q ∈ ancestorsFrom a b ↔ ∃ r, r ≠ [] ∧ r <+: b ∧ renderPath (a ++ r) = q := by
  induction b generalizing a with
  | nil => simp [ancestorsFrom]
  | cons x b ih =>
    rw [ancestorsFrom, mem_cons, ih]
    constructor
    · rintro (rfl | ⟨r, hr, hle, rfl⟩)
      · exact ⟨[x], by simp, by simp, rfl⟩
      · exact ⟨x :: r, by simp, by simpa using hle, by simp⟩
    · rintro ⟨r, hr, hle, rfl⟩
      obtain ⟨y, r, rfl⟩ := exists_cons_of_ne_nil hr
      obtain ⟨rfl, hrest⟩ := cons_prefix_cons.mp hle
      by_cases hnil : r = []
      · exact .inl (by rw [hnil])
      · exact .inr ⟨r, hnil, hrest, by simp⟩

theorem ancestorPrefixes_renderPath (hb : Segments b) :
    ancestorPrefixes (renderPath b) = ancestorsFrom [] b := by
  have hdots : ".." ∉ b := fun h => absurd (hb.valid _ h) (by decide)
  rw [ancestorPrefixes, slashed_renderPath hb.slashed]
  simp only [cleanSegments, isPrefixOf_renderPath, if_true,
    cleanRooted_renderPath hb.valid hb.ne_nil, if_neg hdots]

theorem pairwise_ancestorsFrom : (ancestorsFrom a b).Pairwise fun q q' => q.length < q'.length := by
  induction b generalizing a with
  | nil => exact .nil
  | cons x b ih =>
    refine pairwise_cons.mpr ⟨fun q hq => ?_, ih⟩
    obtain ⟨r, hr, -, rfl⟩ := mem_ancestorsFrom.mp hq
    rw [renderPath, renderPath, joinParts_append (by simp) hr]
    have hslash : "/".length = 1 := rfl
    simp only [String.length_append]
    omega

theorem mem_ancestorPrefixes (hp : canonicalPrefixText p = .ok p)
    (hq : canonicalPrefixText q = .ok q) :
    q ∈ ancestorPrefixes p ↔ containsText q p = true := by
  obtain ⟨b, hb, rfl⟩ := canonicalPrefixText_ok hp
  obtain ⟨a, ha, rfl⟩ := canonicalPrefixText_ok hq
  rw [ancestorPrefixes_renderPath hb, mem_ancestorsFrom, containsText_renderPath ha hb]
  constructor
  · rintro ⟨r, -, hle, heq⟩
    have hr : ∀ x ∈ r, validSegment x = true := fun x hx => hb.valid x (hle.subset hx)
    exact renderPath_injective hr ha.valid heq ▸ hle
  · exact fun hle => ⟨a, ha.ne_nil, hle, rfl⟩

theorem splitPathText_of_trimmed (hb : Segments b)
    (htrim : trimSpace (renderPath b) = renderPath b) :
    splitPathText (renderPath b) = .ok b := by
  have hroot : renderPath b ≠ "/" := fun h =>
    hb.ne_nil (renderPath_injective hb.valid (fun _ h => nomatch h) (h.trans rfl))
  rw [splitPathText, htrim]
  simp only [renderPath_ne_empty, hroot, or_self, if_false, isPrefixOf_renderPath, if_true,
    cleanRooted_renderPath hb.valid hb.ne_nil]

/-- **Coverage is one relation.** `Canonical` is idempotent; the prefixes of a canonical path are
those that contain it, shorter ones first; it is covered by the slices with an included path that
contains it; and canonical paths that do not end in white space name different entries of the tree
store. -/
theorem coverage_one_relation :
    (∀ p c, canonicalText p = .ok c → canonicalText c = .ok c) ∧
    (∀ p, canonicalText p = .ok p →
      (ancestorPrefixes p).Pairwise (fun q q' => q.length < q'.length) ∧
      ∀ q, canonicalPrefixText q = .ok q → (q ∈ ancestorPrefixes p ↔ containsText q p = true)) ∧
    (∀ (included prefixSliceIDs : String → List String) (changedPaths : List String),
      (∀ id, ∀ q ∈ included id, canonicalPrefixText q = .ok q) →
      (∀ q ∈ coveragePrefixUnion changedPaths, ∀ id, id ∈ prefixSliceIDs q ↔ q ∈ included id) →
      ∀ p ∈ changedPaths, canonicalText p = .ok p →
        ∃ ids, (assembleCoverageByPath changedPaths prefixSliceIDs).get p = some ids ∧
          ∀ id, id ∈ ids ↔ inAnyPrefixText (included id) p = true) ∧
    ∀ p q, canonicalText p = .ok p → canonicalText q = .ok q → trimSpace p = p →
      trimSpace q = q → p ≠ q →
      splitPathText p ≠ splitPathText q := by
  refine ⟨fun p c h => (canonicalText_ok h).1, fun p h => ⟨?_, fun q hq => ?_⟩, ?_, ?_⟩
  · obtain ⟨b, hb, rfl⟩ := canonicalPrefixText_ok (canonicalText_ok h).2
    rw [ancestorPrefixes_renderPath hb]
    exact pairwise_ancestorsFrom
  · exact mem_ancestorPrefixes (canonicalText_ok h).2 hq
  · intro included prefixSliceIDs changedPaths hincluded hids p hp hcanonical
    obtain ⟨ids, hget⟩ := Table.exists_get_ofRows (mem_map_of_mem (mem_map_of_mem hp (f := fun p =>
      (p, ((ancestorPrefixes p).flatMap prefixSliceIDs).dedup.insertionSort (· ≤ ·)))) (f := Prod.fst))
    refine ⟨ids, hget, fun id => ?_⟩
    obtain ⟨p', -, heq⟩ := mem_map.mp (Table.mem_of_get_ofRows hget)
    cases heq
    rw [mem_insertionSort, mem_dedup, mem_flatMap, inAnyPrefixText, any_eq_true]
    have hlaw : ∀ q ∈ ancestorPrefixes p, id ∈ prefixSliceIDs q ↔ q ∈ included id := fun q hq =>
      hids q (by simpa [coveragePrefixUnion] using ⟨p, hp, hq⟩) id
    have hmem q (hq : q ∈ included id) := mem_ancestorPrefixes (canonicalText_ok hcanonical).2 (hincluded id q hq)
    refine exists_congr fun q => ⟨?_, ?_⟩
    · rintro ⟨hq, hid⟩
      have hin := (hlaw q hq).mp hid
      exact ⟨hin, (hmem q hin).mp hq⟩
    · rintro ⟨hin, hcontains⟩
      have hq := (hmem q hin).mpr hcontains
      exact ⟨hq, (hlaw q hq).mpr hin⟩
  · intro p q hp hq hpt hqt hne heq
    obtain ⟨a, ha, rfl⟩ := canonicalPrefixText_ok (canonicalText_ok hp).2
    obtain ⟨b, hb, rfl⟩ := canonicalPrefixText_ok (canonicalText_ok hq).2
    rw [splitPathText_of_trimmed ha hpt, splitPathText_of_trimmed hb hqt] at heq
    exact hne (congrArg renderPath (Except.ok.inj heq))

/-- A file that two slices cover, one of them by its account. -/
theorem coverage_one_relation_nested :
    ∃ ids, (assembleCoverageByPath ["/acme/app/a"]
        fun q => [("/acme", "all"), ("/acme/app", "app")].filterMap fun x => if x.1 = q then some x.2 else none).get
          "/acme/app/a" = some ids ∧
      ∀ id, id ∈ ids ↔ inAnyPrefixText ([("/acme", "all"), ("/acme/app", "app")].filterMap fun x =>
        if x.2 = id then some x.1 else none) "/acme/app/a" = true := by
  refine coverage_one_relation.2.2.1 (fun id => [("/acme", "all"), ("/acme/app", "app")].filterMap fun x =>
    if x.2 = id then some x.1 else none) _ ["/acme/app/a"] (fun id q hq => ?_) (fun q _ id => ?_) _
    (mem_singleton.mpr rfl) (by decide +kernel)
  · simp only [mem_filterMap, Option.ite_none_right_eq_some, Option.some.injEq] at hq
    obtain ⟨x, hx, -, rfl⟩ := hq
    revert x
    decide +kernel
  · simp only [mem_filterMap, Option.ite_none_right_eq_some, Option.some.injEq]
    exact exists_congr fun x => and_congr_right fun _ => and_comm

/-- `Canonical` accepts a text that is not canonical, and two canonical paths name one entry. -/
theorem canonical_not_faithful :
    canonicalText "acme/site" = .ok "/acme/site" ∧ canonicalText "/acme/site" ≠ .ok "acme/site" ∧
    canonicalText "/acme/site/a" = .ok "/acme/site/a" ∧
      canonicalText "/acme/site/a " = .ok "/acme/site/a " ∧
    splitPathText "/acme/site/a" = splitPathText "/acme/site/a " := by
  decide +kernel

end GitSlice.Coverage
