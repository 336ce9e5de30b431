import Mathlib.Algebra.GroupWithZero.Nat
import GitSlice.Library.Infix
import GitSlice.PathText

/-! # Paths of a workspace
`internal/cli/workspace_paths.go` and the part of `workspace_scan.go` that names files: a file of a
workspace stands at its global path below the workspace's root. `workspaceRelativePathToGlobalPath`
first takes a relative path as a global one, and a path that is not in the slice as one below the
first included path; before that it replaces backslashes and trims white space.

`scan_keeps_files` says that files that stand where their global paths say keep their names, and
none is lost, and that no other file that is accepted keeps its name. A file outside of the included
paths, one with a backslash in its name, and one whose path begins or ends with white space is
refused or gets the global path that belongs to another place, where another file may stand. -/

namespace GitSlice

open List

namespace WorkspacePaths

/-! ## The code -/

/-- A path as the user types it, made absolute. -/
def cleanShellGlobalPath (value : String) : String :=
  let value := trimSpace (slashed value)
  if value = "" then "/"
  else renderPath (cleanRooted (if ['/'].isPrefixOf value.toList then value else "/" ++ value))

/-- `strings.TrimRight(s, "/")`. -/
def trimSlashes (s : String) : String := String.ofList (s.toList.rdropWhile (· = '/'))

/-- `paths.Contains` on texts. -/
def containsText (base p : String) : Bool :=
  trimSlashes p = trimSlashes base ||
    ((trimSlashes base).toList ++ ['/']).isPrefixOf (trimSlashes p).toList

/-- `paths.InAnyPrefix` on texts. -/
def inAnyPrefixText (bases : List String) (p : String) : Bool := bases.any (containsText · p)

/-- The error for a path outside of the slice. -/
def outsideSlice (p : String) : String := "path is outside the workspace slice: " ++ p

/-- The global path of a file of the workspace. -/
def workspaceRelativePathToGlobalPath (includedPaths : List String) (value : String) :
    Except String String :=
  let value := trimSpace (slashed value)
  match includedPaths with
  | [] => .error "workspace has no included paths"
  | first :: _ =>
    if inAnyPrefixText includedPaths (cleanShellGlobalPath value) then .ok (cleanShellGlobalPath value)
    else do
      let globalPath ← fromWorkspacePath first value
      if inAnyPrefixText includedPaths (renderPath globalPath) then .ok (renderPath globalPath)
      else .error (outsideSlice (renderPath globalPath))

/-- The way back. -/
def workspaceRelPath (includedPaths : List String) (globalPath : String) : Except String String :=
  if inAnyPrefixText includedPaths (cleanShellGlobalPath globalPath) then
    .ok (trimStart "/" (cleanShellGlobalPath globalPath))
  else .error (outsideSlice globalPath)

/-- `shouldSkip`, for a relative path. -/
def shouldSkip (rel : Path) : Bool :=
  (match rel with
    | [name] => name = ".agent-meta.json" ||
      (".agent-meta-".toList.isPrefixOf name.toList && ".tmp".toList.isSuffixOf name.toList)
    | _ => false) ||
  rel.getLast? = some ".gs" || rel.head?.any fun first => first ∈ [".git", ".gs", ".gitslice"]

/-- The part of `scanWorkspaceFilesWithStats` that names the files it found: those that it does not
skip, each under its global path. `ignored` are the paths that the `.gitignore` files leave out. -/
def scanFiles {F : Type} (includedPaths : List String) (ignored : Path → Bool)
    (files : List (Path × F)) :
    Except String (Table String F) := do
  let named ← (files.filter fun file => !shouldSkip file.1 && !ignored file.1).mapM fun file => do
    return (← workspaceRelativePathToGlobalPath includedPaths (joinParts file.1), file.2)
  return .ofRows named

/-! ## Canonical texts -/

variable {s : String} {a b : Path}

theorem containsText_renderPath (ha : Segments a) (hb : Segments b) :
    containsText (renderPath a) (renderPath b) = true ↔ a <+: b := by
  have htrim : ∀ {a : Path}, Segments a → trimSlashes (renderPath a) = renderPath a := fun h => by
    rw [trimSlashes, rdropWhile_renderPath h.valid h.ne_nil, String.ofList_toList]
  rw [containsText, htrim ha, htrim hb, Bool.or_eq_true, decide_eq_true_eq, isPrefixOf_iff_prefix]
  constructor
  · rintro (heq | ⟨t, ht⟩)
    · rw [renderPath_injective hb.valid ha.valid heq]
    · -- the rest of the text begins behind a slash, so it has segments of its own
      simp only [renderPath, String.toList_append, append_assoc, append_cancel_left_eq,
        singleton_append] at ht
      have hsplit := splitOn_joinParts hb.valid hb.ne_nil
      rw [← ht, splitOn_append_cons_self, splitOn_joinParts ha.valid ha.ne_nil] at hsplit
      have hle : a.map String.toList <+: b.map String.toList := ⟨_, hsplit⟩
      have hback := hle.map String.ofList
      simpa [Function.comp_def] using hback
  · rintro ⟨r, rfl⟩
    by_cases hr : r = []
    · exact .inl (by rw [hr, append_nil])
    · refine .inr ⟨(joinParts r).toList, ?_⟩
      rw [renderPath, renderPath, joinParts_append ha.ne_nil hr]
      simp

/-! ## Files that stand at their global paths -/

/-- The path of a file in a workspace: it can be any that the file system allows. -/
def IsFile (p : Path) : Prop := p ≠ [] ∧ ∀ a ∈ p, validSegment a = true

/-- The file stands where its global path says: the path lies in the slice and has neither a
backslash nor white space at its ends. -/
structure InPlace (includedPaths : List String) (p : Path) : Prop where
  slashed : Slashed p
  trimmed : trimSpace (joinParts p) = joinParts p
  included : inAnyPrefixText includedPaths (renderPath p) = true

variable {t : String}

theorem rdropWhile_of_trimmed (h : trimSpace t = t) : t.toList.rdropWhile isSpace = t.toList := by
  have hlist := congrArg String.toList h
  rw [trimSpace, trimSpaceRight_eq, String.toList_ofList, String.toList_ofList] at hlist
  have hpart := rdropWhile_prefix isSpace (l := t.toList.dropWhile isSpace)
  have hle := hpart.length_le
  have hsuffix := dropWhile_suffix isSpace (l := t.toList)
  rw [hlist] at hle
  have hdrop := hsuffix.eq_of_length_le hle
  rwa [hdrop] at hlist

theorem trimSpace_slash (h : trimSpace t = t) (hne : t ≠ "") : trimSpace ("/" ++ t) = "/" ++ t := by
  have hlist : t.toList ≠ [] := fun hnil => hne (String.toList_inj.mp hnil)
  have htext : ("/" ++ t).toList = '/' :: t.toList := by
    rw [String.toList_append]
    rfl
  refine String.toList_inj.mp ?_
  rw [trimSpace, trimSpaceRight_eq, String.toList_ofList, String.toList_ofList, htext,
    dropWhile_cons_of_neg (by decide), rdropWhile_eq_self_iff]
  intro _
  rw [getLast_cons hlist]
  exact rdropWhile_eq_self_iff.mp (rdropWhile_of_trimmed h) hlist

section InPlace

variable {includedPaths : List String} {p q : Path}

section

variable (hp : IsFile p)
include hp

section

variable (h : InPlace includedPaths p)
include h

theorem cleanShellGlobalPath_joinParts : cleanShellGlobalPath (joinParts p) = renderPath p := by
  rw [cleanShellGlobalPath, slashed_joinParts h.slashed, h.trimmed]
  simp only [if_neg (joinParts_ne_empty hp.2 hp.1), if_neg (not_isPrefixOf_joinParts hp.2 hp.1)]
  rw [show "/" ++ joinParts p = renderPath p from rfl, cleanRooted_renderPath hp.2 hp.1]

theorem cleanShellGlobalPath_renderPath : cleanShellGlobalPath (renderPath p) = renderPath p := by
  have htrim : trimSpace (renderPath p) = renderPath p :=
    trimSpace_slash h.trimmed (joinParts_ne_empty hp.2 hp.1)
  rw [cleanShellGlobalPath, slashed_renderPath h.slashed, htrim]
  simp only [if_neg (renderPath_ne_empty p), isPrefixOf_renderPath, if_true]
  rw [cleanRooted_renderPath hp.2 hp.1]

theorem toGlobalPath_of_inPlace :
    workspaceRelativePathToGlobalPath includedPaths (joinParts p) = .ok (renderPath p) := by
  cases includedPaths with
  | nil =>
    have := h.included
    cases this
  | cons first rest =>
    rw [workspaceRelativePathToGlobalPath, slashed_joinParts h.slashed, h.trimmed]
    simp only [cleanShellGlobalPath_joinParts hp h, h.included, if_true]

theorem toRelPath_of_inPlace :
    workspaceRelPath includedPaths (renderPath p) = .ok (joinParts p) := by
  rw [workspaceRelPath, cleanShellGlobalPath_renderPath hp h, if_pos h.included,
    trimStart_renderPath]

end

end

end InPlace

/-! ## Files that keep their names -/

/-- The characters `normalizeSlug` allows. -/
def slugChars : List Char := "abcdefghijklmnopqrstuvwxyz0123456789-".toList

/-- What `validateSliceDefinition` promises of a slice of an account: its included paths are
canonical, and their first segment is the account. -/
structure OfAccount (account : String) (includedPaths : List String) : Prop where
  slug : account ≠ "" ∧ ∀ c ∈ account.toList, c ∈ slugChars
  paths : ∀ i ∈ includedPaths, ∃ m, Segments (account :: m) ∧ i = renderPath (account :: m)

/-- Neither way to read a path gives one in the slice. -/
structure Refused (includedPaths : List String) (p : Path) : Prop where
  asGlobal : ¬ inAnyPrefixText includedPaths (cleanShellGlobalPath (trimSpace (slashed (joinParts p)))) = true
  asLocal : ∀ first ∈ includedPaths.head?, ∀ q,
    fromWorkspacePath first (trimSpace (slashed (joinParts p))) = .ok q →
    ¬ inAnyPrefixText includedPaths (renderPath q) = true

variable {includedPaths : List String} {p : Path}

/-- A path is accepted in one of two ways. -/
theorem toGlobalPath_ok {value g : String}
    (h : workspaceRelativePathToGlobalPath includedPaths value = .ok g) :
    inAnyPrefixText includedPaths g = true ∧ (g = cleanShellGlobalPath (trimSpace (slashed value)) ∨
      ∃ first ∈ includedPaths.head?, ∃ q, fromWorkspacePath first (trimSpace (slashed value)) = .ok q ∧
        g = renderPath q) := by
  cases includedPaths with
  | nil => cases h
  | cons first rest =>
    simp only [workspaceRelativePathToGlobalPath] at h
    generalize cleanShellGlobalPath (trimSpace (slashed value)) = c at h ⊢
    split_ifs at h with hin
    · obtain rfl := Except.ok.inj h
      exact ⟨hin, .inl rfl⟩
    · obtain ⟨q, hq, h⟩ := GitSlice.Except.bind_eq_ok.mp h
      split_ifs at h with hin'
      obtain rfl := Except.ok.inj h
      exact ⟨hin', .inr ⟨first, rfl, q, hq, rfl⟩⟩

/-- A refused file has no global path. -/
theorem Refused.not_ok (h : Refused includedPaths p) {g : String} :
    workspaceRelativePathToGlobalPath includedPaths (joinParts p) ≠ .ok g := by
  intro hok
  obtain ⟨hin, heq | ⟨first, hfirst, q, hq, heq⟩⟩ := toGlobalPath_ok hok
  · exact h.asGlobal (heq ▸ hin)
  · exact h.asLocal first hfirst q hq (heq ▸ hin)

/-- A file that is not refused has one. -/
theorem exists_toGlobalPath (h : ¬ Refused includedPaths p) :
    ∃ g, workspaceRelativePathToGlobalPath includedPaths (joinParts p) = .ok g := by
  cases includedPaths with
  | nil => exact absurd ⟨by simp [inAnyPrefixText], by simp⟩ h
  | cons first rest =>
    simp only [workspaceRelativePathToGlobalPath]
    split_ifs with hin
    · exact ⟨_, rfl⟩
    · cases hq : fromWorkspacePath first (trimSpace (slashed (joinParts p))) with
      | error e =>
        refine absurd ⟨hin, fun f hf q hok => ?_⟩ h
        obtain rfl : first = f := Option.some.inj hf
        rw [hq] at hok
        cases hok
      | ok q =>
        by_cases hin' : inAnyPrefixText (first :: rest) (renderPath q) = true
        · exact ⟨renderPath q, if_pos hin'⟩
        · refine absurd ⟨hin, fun f hf q' hok => ?_⟩ h
          obtain rfl : first = f := Option.some.inj hf
          obtain rfl : q = q' := Except.ok.inj (hq.symm.trans hok)
          exact hin'

/-! ### Cleaning never makes a text longer -/

/-- The length of a path as a text. -/
theorem length_renderPath (hne : p ≠ []) :
    (renderPath p).toList.length = (p.map fun a => a.toList.length + 1).sum := by
  induction p with
  | nil => exact absurd rfl hne
  | cons a p ih =>
    cases p with
    | nil => simp [renderPath, joinParts, Nat.add_comm]
    | cons b p =>
      have hrest := ih (cons_ne_nil b p)
      simp only [renderPath, String.toList_append, length_append] at hrest ⊢
      rw [joinParts_cons_cons, map_cons, sum_cons, ← hrest]
      simp only [length_append, length_cons]
      omega

/-- The parts of a text between slashes. -/
theorem sum_splitOn (l : List Char) :
    ((l.splitOn '/').map fun a => a.length + 1).sum = l.length + 1 := by
  induction l with
  | nil => rfl
  | cons c l ih =>
    rw [List.splitOn, splitOnP_cons_eq_if_modifyHead]
    split_ifs
    · simp only [map_cons, sum_cons, length_nil, length_cons]
      rw [← List.splitOn, ih]
      omega
    · obtain ⟨a, rest, hsplit⟩ := exists_cons_of_ne_nil (splitOnP_ne_nil (· == '/') l)
      rw [List.splitOn, hsplit] at ih
      rw [hsplit]
      simp only [modifyHead_cons, map_cons, sum_cons, length_cons] at ih ⊢
      omega

/-- A rooted path does not get longer. -/
theorem length_cleanRooted (h : ['/'].isPrefixOf t.toList = true) :
    (renderPath (cleanRooted t)).toList.length ≤ t.toList.length := by
  obtain ⟨rest, hrest⟩ := isPrefixOf_iff_prefix.mp h
  -- no step adds more than the part it takes
  have hstep : ∀ (parts : List (List Char)) (segments : Path),
      ((parts.foldl cleanStep segments).map fun a => a.toList.length + 1).sum ≤
        (segments.map fun a => a.toList.length + 1).sum + (parts.map fun a => a.length + 1).sum := by
    intro parts
    induction parts with
    | nil => simp
    | cons part parts ih =>
      intro segments
      refine (ih _).trans ?_
      rw [map_cons, sum_cons, ← Nat.add_assoc]
      refine Nat.add_le_add_right ?_ _
      unfold cleanStep
      split_ifs
      · omega
      · rcases eq_nil_or_concat' segments with rfl | ⟨front, a, rfl⟩
        · simp
        · simp only [dropLast_concat, map_append, sum_append]
          omega
      · simp
  have hclean : cleanRooted t = (rest.splitOn '/').foldl cleanStep [] := by
    rw [cleanRooted, ← hrest, singleton_append, List.splitOn, splitOnP_cons_eq_if_modifyHead,
      if_pos (by decide), foldl_cons]
    rfl
  have hle := hstep (rest.splitOn '/') []
  rw [sum_splitOn, ← hclean] at hle
  have hlength := congrArg length hrest
  by_cases hnil : cleanRooted t = []
  · rw [hnil]
    simp [renderPath, joinParts] at hlength ⊢
    omega
  · rw [length_renderPath hnil]
    simp only [length_append, length_singleton, map_nil, sum_nil] at hlength hle
    omega

/-- What `cleanShellGlobalPath` returns: a clean path, which is not longer than its text with a
slash. -/
theorem exists_cleanShellGlobalPath (value : String) :
    ∃ q, cleanShellGlobalPath value = renderPath q ∧
    Slashed q ∧ (renderPath q).toList.length ≤ value.toList.length + 1 := by
  have hback := backslash_notMem_slashed value
  have hin := isInfix_trimSpace (slashed value)
  have hlength : (trimSpace (slashed value)).toList.length ≤ value.toList.length := by
    refine hin.length_le.trans ?_
    rw [slashed, String.toList_ofList, length_map]
  have hback' : '\\' ∉ (trimSpace (slashed value)).toList := fun h => hback (hin.subset h)
  rw [cleanShellGlobalPath]
  generalize trimSpace (slashed value) = t at hback' hlength
  have hclean : ∀ t : String, '\\' ∉ t.toList → Slashed (cleanRooted t) := fun t ht a ha hmem =>
    ht ((mem_cleanRooted ha).2 hmem)
  split_ifs with hempty hslash
  · exact ⟨[], rfl, by simp [Slashed], by simp [renderPath, joinParts]⟩
  · exact ⟨_, rfl, hclean t hback', (length_cleanRooted hslash).trans (by omega)⟩
  · refine ⟨_, rfl, hclean _ ?_, (length_cleanRooted ?_).trans ?_⟩
    · rw [String.toList_append, mem_append]
      exact fun h => h.elim (by decide) hback'
    · simp
    · simp [Nat.add_comm]
      omega

/-- Trimming stops at a character that is no white space. -/
theorem prefix_trimSpace {front : List Char} {c : Char} (h : front ++ [c] <+: t.toList)
    (hfront : ∀ x ∈ front, isSpace x = false) (hc : isSpace c = false) :
    front ++ [c] <+: (trimSpace t).toList := by
  obtain ⟨back, hback⟩ := h
  have hhead : t.toList.dropWhile isSpace = t.toList := by
    rw [← hback]
    cases front with
    | nil => exact dropWhile_cons_of_neg (by simp [hc])
    | cons x front => exact dropWhile_cons_of_neg (by simp [hfront x mem_cons_self])
  rw [trimSpace, trimSpaceRight_eq, String.toList_ofList, String.toList_ofList, hhead, ← hback,
    rdropWhile, reverse_append, dropWhile_append]
  split_ifs
  · rw [reverse_append, reverse_singleton, singleton_append, dropWhile_cons_of_neg (by simp [hc]),
      reverse_cons, reverse_reverse]
  · rw [reverse_append, reverse_reverse]
    exact prefix_append _ _

/-- A clean path does not get longer. -/
theorem length_cleanShellGlobalPath_renderPath (q : Path) :
    (cleanShellGlobalPath (renderPath q)).toList.length ≤ (renderPath q).toList.length := by
  have hstart : ['/'] <+: (trimSpace (slashed (renderPath q))).toList := by
    refine @prefix_trimSpace _ [] _ ?_ (by simp) (by decide)
    rw [slashed, String.toList_ofList, renderPath, String.toList_append]
    exact prefix_append _ _
  have hlength : (trimSpace (slashed (renderPath q))).toList.length ≤
      (renderPath q).toList.length := by
    refine (isInfix_trimSpace _).length_le.trans ?_
    rw [slashed, String.toList_ofList, length_map]
  rw [cleanShellGlobalPath]
  generalize trimSpace (slashed (renderPath q)) = t at hstart hlength
  rw [if_neg (by rintro rfl; simp at hstart), if_pos <| isPrefixOf_iff_prefix.mpr hstart]
  exact (length_cleanRooted <| isPrefixOf_iff_prefix.mpr hstart).trans hlength

/-- A path that begins with the account of the first included path is read in one way only. -/
theorem fromWorkspacePath_account {account v : String} {q m : Path}
    (hslug : account ≠ "" ∧ ∀ c ∈ account.toList, c ∈ slugChars) (hm : Segments (account :: m))
    (hv : '\\' ∉ v.toList) (htrim : trimSpace v = v) (hstart : account.toList ++ ['/'] <+: v.toList)
    (h : fromWorkspacePath (renderPath (account :: m)) v = .ok q) :
    renderPath q = cleanShellGlobalPath v := by
  -- the text starts with a character of the account
  obtain ⟨c, rest, haccount⟩ := exists_cons_of_ne_nil fun hnil => hslug.1 (String.toList_inj.mp hnil)
  have hc : c ∈ slugChars := hslug.2 c (haccount ▸ mem_cons_self)
  obtain ⟨back, hback⟩ := hstart
  have hother : ∀ d, d ∉ slugChars → ∀ tail, ¬ (d :: tail).isPrefixOf v.toList = true := by
    intro d hd tail htail
    rw [← hback, isPrefixOf_iff_prefix, haccount, cons_append, cons_append,
      cons_prefix_cons] at htail
    exact hd (htail.1 ▸ hc)
  have hdot : trimStart "./" v = v := if_neg (hother '.' (by decide) ['/'])
  have hslash : ¬ ['/'].isPrefixOf v.toList = true := hother '/' (by decide) []
  have hempty : v ≠ "" := by
    rintro rfl
    simp at hback
  rw [fromWorkspacePath] at h
  simp only [slashed_eq_self hv, hdot, account_renderPath hm.valid, head?_cons, Option.getD_some,
    isPrefixOf_iff_prefix] at h
  rw [if_pos ⟨back, hback⟩, canonicalPath, canonicalize, if_neg hempty] at h
  simp only [slashed_eq_self hv, if_neg hslash] at h
  rw [cleanShellGlobalPath, slashed_eq_self hv, htrim]
  simp only [if_neg hempty, if_neg hslash]
  generalize cleanRooted ("/" ++ v) = segments at h ⊢
  obtain ⟨segments', hsegments, h⟩ := GitSlice.Except.bind_eq_ok.mp h
  split_ifs at hsegments
  cases hsegments
  split_ifs at h
  cases h
  rfl

/-- **A file that keeps its name stands at its global path**, in a slice of an account. -/
theorem inPlace_of_returns {account g : String} (hconfig : OfAccount account includedPaths)
    (hp : IsFile p) (hok : workspaceRelativePathToGlobalPath includedPaths (joinParts p) = .ok g)
    (hback : workspaceRelPath includedPaths g = .ok (joinParts p)) : InPlace includedPaths p := by
  have hany : slugChars.any isSpace = false := by decide
  have hplain : ∀ c ∈ slugChars, isSpace c = false := by simpa using any_eq_false.mp hany
  rw [workspaceRelPath] at hback
  obtain ⟨q, hq, hslashed, -⟩ := exists_cleanShellGlobalPath g
  rw [hq] at hback
  split_ifs at hback with hin
  rw [trimStart_renderPath] at hback
  have hrel : joinParts q = joinParts p := Except.ok.inj hback
  have hsame : renderPath q = renderPath p := congrArg ("/" ++ ·) hrel
  rw [hsame] at hin hq
  have hfree : '\\' ∉ (joinParts p).toList := fun h => by
    rw [← hrel] at h
    obtain ⟨a, ha, hmem⟩ := mem_joinParts (by decide) h
    exact hslashed a ha hmem
  have hslashed' : Slashed p := fun a ha hmem => hfree
    (toList_joinParts p ▸ (Infix.infix_of_mem_intercalate (mem_map_of_mem ha)).subset hmem)
  refine ⟨hslashed', ?_, hin⟩
  -- the path begins with the account
  obtain ⟨i, hi, hcontains⟩ := any_eq_true.mp hin
  obtain ⟨m, hm, rfl⟩ := hconfig.paths i hi
  obtain ⟨rest, rfl⟩ := (containsText_renderPath hm ⟨hp.2, hslashed', hp.1⟩).mp hcontains
  have hin := isInfix_trimSpace (joinParts (account :: m ++ rest))
  by_contra htrim
  have hshorter : (trimSpace (joinParts (account :: m ++ rest))).toList.length <
      (joinParts (account :: m ++ rest)).toList.length :=
    lt_of_le_of_ne hin.length_le fun heq => htrim (String.toList_inj.mp (hin.eq_of_length heq))
  -- so it begins with the account and a slash, and trimming leaves these
  have hstart : account.toList ++ ['/'] <+: (joinParts (account :: m ++ rest)).toList := by
    cases hrest : m ++ rest with
    | nil =>
      -- the account alone has nothing to trim
      have halone : (joinParts (account :: m ++ rest)).toList = account.toList := by
        rw [cons_append, hrest]
        simp [joinParts]
      obtain ⟨front, c, hlast⟩ := eq_nil_or_concat' account.toList |>.resolve_left fun hnil =>
        hconfig.slug.1 (String.toList_inj.mp hnil)
      have hspace : ∀ x ∈ front ++ [c], isSpace x = false := fun x hx =>
        hplain x (hconfig.slug.2 x (hlast ▸ hx))
      have hkept := prefix_trimSpace (by rw [halone, hlast]) (fun x hx => hspace x (mem_append_left _ hx))
        (hspace c (by simp))
      rw [← hlast, ← halone] at hkept
      exact absurd hshorter (not_lt.mpr hkept.length_le)
    | cons b tail =>
      rw [cons_append, hrest, joinParts_cons_cons]
      exact ⟨(joinParts (b :: tail)).toList, by simp⟩
  have hkept := prefix_trimSpace hstart (fun c hc => hplain c (hconfig.slug.2 c hc)) (by decide)
  have hread : g = cleanShellGlobalPath (trimSpace (joinParts (account :: m ++ rest))) := by
    obtain ⟨-, h⟩ := toGlobalPath_ok hok
    rw [slashed_eq_self hfree] at h
    rcases h with h | ⟨first, hfirst, q', hq', rfl⟩
    · exact h
    · obtain ⟨m', hm', rfl⟩ := hconfig.paths first (mem_of_mem_head? hfirst)
      exact fromWorkspacePath_account hconfig.slug hm' (fun h => hfree (hin.subset h))
        (trimSpace_trimSpace _) hkept hq'
  obtain ⟨q', hq', -, hlength⟩ := exists_cleanShellGlobalPath (trimSpace (joinParts (account :: m ++ rest)))
  rw [hread, hq'] at hq
  have hle := length_cleanShellGlobalPath_renderPath q'
  rw [hq, renderPath, String.toList_append, length_append] at hle
  have hone : "/".toList.length = 1 := rfl
  omega

/-! ## A scan -/

/-- The files of a listing that a scan takes. -/
def scanned {F : Type} (ignored : Path → Bool) (files : List (Path × F)) : List (Path × F) :=
  files.filter fun file => !shouldSkip file.1 && !ignored file.1

theorem scanFiles_of_inPlace {F : Type} {includedPaths : List String} {ignored : Path → Bool}
    {files : List (Path × F)} (hfiles : ∀ file ∈ scanned ignored files, IsFile file.1)
    (hplace : ∀ file ∈ scanned ignored files, InPlace includedPaths file.1) :
    scanFiles includedPaths ignored files =
      .ok (.ofRows ((scanned ignored files).map fun file => (renderPath file.1, file.2))) := by
  have hnamed := Except.mapM_eq_map (l := scanned ignored files)
    (f := fun file => do
      return (← workspaceRelativePathToGlobalPath includedPaths (joinParts file.1), file.2))
    fun file hfile => by
      rw [toGlobalPath_of_inPlace (hfiles file hfile) (hplace file hfile)]
      rfl
  rw [scanFiles, show (files.filter fun file => !shouldSkip file.1 && !ignored file.1) =
    scanned ignored files from rfl, hnamed]
  rfl

/-- The files of a listing **keep their names** in a scan: a file that is accepted is led back to by
its global path, no other file has this path, and a scan that succeeds has every file under its
own. -/
structure KeepsFiles {F : Type} (includedPaths : List String) (ignored : Path → Bool)
    (files : List (Path × F)) : Prop where
  returns : ∀ file ∈ scanned ignored files, ∀ g,
    workspaceRelativePathToGlobalPath includedPaths (joinParts file.1) = .ok g →
    workspaceRelPath includedPaths g = .ok (joinParts file.1)
  apart : ∀ file ∈ scanned ignored files, ∀ file' ∈ scanned ignored files, file.1 ≠ file'.1 → ∀ g,
    workspaceRelativePathToGlobalPath includedPaths (joinParts file.1) = .ok g →
    workspaceRelativePathToGlobalPath includedPaths (joinParts file'.1) ≠ .ok g
  found : ∀ found, scanFiles includedPaths ignored files = .ok found →
    ∀ file ∈ scanned ignored files, ∀ g,
    workspaceRelativePathToGlobalPath includedPaths (joinParts file.1) = .ok g →
      found.get g = some file.2

/-- **Scanned files keep their names** if each stands at its global path or is refused; and in the
slice of an account, only then. -/
theorem scan_keeps_files {F : Type} (includedPaths : List String) (ignored : Path → Bool)
    (files : List (Path × F)) (hdisk : (files.map Prod.fst).Nodup)
    (hfiles : ∀ file ∈ files, IsFile file.1) :
    ((∀ file ∈ scanned ignored files, InPlace includedPaths file.1 ∨ Refused includedPaths file.1) →
      KeepsFiles includedPaths ignored files) ∧
    ∀ account, OfAccount account includedPaths → KeepsFiles includedPaths ignored files →
      ∀ file ∈ scanned ignored files, InPlace includedPaths file.1 ∨
        Refused includedPaths file.1 := by
  have hvalid : ∀ file ∈ scanned ignored files, IsFile file.1 :=
    fun file hfile => hfiles file (mem_of_mem_filter hfile)
  constructor
  · intro h
    have hplace : ∀ file ∈ scanned ignored files, ∀ g,
        workspaceRelativePathToGlobalPath includedPaths (joinParts file.1) = .ok g →
        InPlace includedPaths file.1 ∧ g = renderPath file.1 := by
      intro file hfile g hg
      have hin := (h file hfile).resolve_right fun hrefused => hrefused.not_ok hg
      rw [toGlobalPath_of_inPlace (hvalid file hfile) hin] at hg
      exact ⟨hin, (Except.ok.inj hg).symm⟩
    have hsame : ∀ file ∈ scanned ignored files, ∀ file' ∈ scanned ignored files,
        renderPath file.1 = renderPath file'.1 → file.1 = file'.1 :=
      fun file hfile file' hfile' => renderPath_injective (hvalid file hfile).2 (hvalid file' hfile').2
    refine ⟨fun file hfile g hg => ?_, fun file hfile file' hfile' hne g hg hg' => ?_,
      fun found hfound file hfile g hg => ?_⟩
    · obtain ⟨hin, rfl⟩ := hplace file hfile g hg
      exact toRelPath_of_inPlace (hvalid file hfile) hin
    · obtain ⟨-, rfl⟩ := hplace file hfile g hg
      exact hne (hsame file hfile file' hfile' (hplace file' hfile' _ hg').2)
    · -- a scan that succeeds has refused no file
      have hall : ∀ file ∈ scanned ignored files, InPlace includedPaths file.1 := by
        intro file hfile
        obtain ⟨named, hnamed, -⟩ := GitSlice.Except.bind_eq_ok.mp hfound
        obtain ⟨row, -, hrow⟩ := Except.exists_mapM_of_mem hnamed hfile
        obtain ⟨g, hg, -⟩ := GitSlice.Except.bind_eq_ok.mp hrow
        exact (hplace file hfile g hg).1
      rw [scanFiles_of_inPlace hvalid hall] at hfound
      obtain rfl := Except.ok.inj hfound
      obtain ⟨-, rfl⟩ := hplace file hfile g hg
      obtain ⟨content, hget⟩ := Table.exists_get_ofRows
        (mem_map_of_mem (mem_map_of_mem (f := fun file => (renderPath file.1, file.2)) hfile))
      -- the row that was found is of a file with the same path, and a directory has one file of a
      -- name
      obtain ⟨file', hfile', heq⟩ := mem_map.mp (Table.mem_of_get_ofRows hget)
      have hrow : file' = file := inj_on_of_nodup_map hdisk (mem_of_mem_filter hfile')
        (mem_of_mem_filter hfile) (hsame file' hfile' file hfile (congrArg Prod.fst heq))
      rw [hget, ← hrow, show file'.2 = content from congrArg Prod.snd heq]
  · intro account hconfig h file hfile
    refine or_iff_not_imp_right.mpr fun hrefused => ?_
    obtain ⟨g, hg⟩ := exists_toGlobalPath hrefused
    exact inPlace_of_returns hconfig (hvalid file hfile) hg (h.returns file hfile g hg)

/-- Two files of a slice, one with a space and dots in its name, and one outside of it. -/
def appFiles : List (Path × Nat) :=
  [(["acme", "app", "a.go"], 1), (["acme", "app", "..b c.go"], 2), (["acme", "other", "x"], 3)]

/-- The two keep their names, the third is refused. -/
theorem scan_keeps_files_app : KeepsFiles ["/acme/app"] (fun _ => false) appFiles := by
  have hfiles : ∀ file ∈ appFiles, IsFile file.1 := by
    unfold IsFile
    decide +kernel
  have hplace : ∀ file ∈ appFiles, InPlace ["/acme/app"] file.1 ∨ Refused ["/acme/app"] file.1 := by
    refine forall_mem_cons.mpr ⟨.inl ?_, forall_mem_cons.mpr ⟨.inl ?_, forall_mem_singleton.mpr (.inr ?_)⟩⟩
    · exact ⟨by decide +kernel, by decide +kernel, by decide +kernel⟩
    · exact ⟨by decide +kernel, by decide +kernel, by decide +kernel⟩
    · refine ⟨by decide +kernel, fun first hfirst q hq => ?_⟩
      obtain rfl : "/acme/app" = first := Option.some.inj hfirst
      have hother : fromWorkspacePath "/acme/app" (trimSpace (slashed (joinParts ["acme", "other", "x"]))) =
          .ok ["acme", "other", "x"] := by decide +kernel
      obtain rfl := Except.ok.inj (hother.symm.trans hq)
      decide +kernel
  exact (scan_keeps_files ["/acme/app"] (fun _ => false) appFiles (by decide +kernel) hfiles).1
    fun file hfile => hplace file (mem_of_mem_filter hfile)

/-- Two files of which the scan keeps one: `a.go` at the root of the workspace gets the global path
of `acme/app/a.go`, and its path does not lead back to it. A name with a backslash takes the place
of a file in a directory in the same way. -/
theorem scan_drops_file :
    IsFile ["a.go"] ∧ IsFile ["acme", "app", "a.go"] ∧
    workspaceRelativePathToGlobalPath ["/acme/app"] (joinParts ["a.go"]) = .ok "/acme/app/a.go" ∧
    workspaceRelativePathToGlobalPath ["/acme/app"] (joinParts ["acme", "app", "a.go"]) =
      .ok "/acme/app/a.go" ∧
    workspaceRelPath ["/acme/app"] "/acme/app/a.go" ≠ .ok (joinParts ["a.go"]) ∧
    (∀ found, scanFiles ["/acme/app"] (fun _ => false) [(["a.go"], 1), (["acme", "app", "a.go"], 2)] =
      .ok found → found.rows = [("/acme/app/a.go", 2)]) ∧
    IsFile ["acme", "app", "a\\b"] ∧ IsFile ["acme", "app", "a", "b"] ∧
    workspaceRelativePathToGlobalPath ["/acme/app"] (joinParts ["acme", "app", "a\\b"]) =
      workspaceRelativePathToGlobalPath ["/acme/app"] (joinParts ["acme", "app", "a", "b"]) ∧
    workspaceRelativePathToGlobalPath ["/acme/app"] (joinParts ["acme", "app", "a", "b"]) =
      .ok "/acme/app/a/b" := by
  refine ⟨⟨by decide, by decide +kernel⟩, ⟨by decide, by decide +kernel⟩, by decide +kernel,
    by decide +kernel,
    by decide +kernel, ?_, ⟨by decide, by decide +kernel⟩, ⟨by decide, by decide +kernel⟩, by decide +kernel,
    by decide +kernel⟩
  have hrows : (scanFiles ["/acme/app"] (fun _ => false) [(["a.go"], 1), (["acme", "app", "a.go"], 2)]).map
      Table.rows = .ok [("/acme/app/a.go", 2)] := by decide +kernel
  intro found hfound
  rw [hfound] at hrows
  exact Except.ok.inj hrows

end WorkspacePaths

end GitSlice
