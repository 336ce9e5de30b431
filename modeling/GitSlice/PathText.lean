import GitSlice.Library.Except
import GitSlice.Library.Infix
import GitSlice.Storage.Requirements
import GitSlice.TreeStore.Listing

/-! # Paths as texts
`internal/paths` on the texts it is given. Elsewhere a path is the list of its segments; here are
the functions that make one from a text: `canonicalize`, `Canonical` and `FromWorkspacePath`, which
is given a path relative to a prefix but takes one that begins with the prefix's account as
absolute.

`fromWorkspacePath_joinParts` says what a path of proper segments without backslashes becomes. -/

namespace GitSlice

open List

/-- `strings.ReplaceAll(s, "\\", "/")`. -/
def slashed (s : String) : String :=
  String.ofList (s.toList.map fun c => if c = '\\' then '/' else c)

/-- `strings.TrimPrefix(s, start)`. -/
def trimStart (start s : String) : String :=
  if start.toList.isPrefixOf s.toList then String.ofList (s.toList.drop start.toList.length) else s

/-- One segment in `path.Clean` of a rooted path: at the root `..` stays there. -/
def cleanStep (segments : Path) (segment : List Char) : Path :=
  if segment = [] ∨ segment = ['.'] then segments
  else if segment = ['.', '.'] then segments.dropLast
  else segments ++ [String.ofList segment]

/-- The segments of `path.Clean` of a rooted path. -/
def cleanRooted (s : String) : Path := (s.toList.splitOn '/').foldl cleanStep []

/-- `canonicalize`. The path it cleans is rooted, so no `..` and no empty segment is left for its
other checks. -/
def canonicalize (p : String) : Except String Path :=
  if p = "" then .error "path is empty"
  else
    let p := if ['/'].isPrefixOf (slashed p).toList then slashed p else "/" ++ slashed p
    if cleanRooted p = [] then .error ("path must include at least an account segment: " ++ quote p)
    else .ok (cleanRooted p)

/-- `Canonical`. -/
def canonicalPath (p : String) : Except String Path := do
  let segments ← canonicalize p
  if segments.length < 2 then .error ("path must include account and slice segments: " ++ quote p)
  else .ok segments

/-- The native path of a path in a workspace. -/
def fromWorkspacePath (includedPath workspacePath : String) : Except String Path :=
  let workspacePath := trimStart "./" (slashed workspacePath)
  let account := ((trimStart "/" includedPath).toList.splitOn '/').headD []
  if (account ++ ['/']).isPrefixOf workspacePath.toList then canonicalPath workspacePath
  else if workspacePath = "" then canonicalPath includedPath
  else canonicalPath (String.ofList (includedPath.toList.rdropWhile (· = '/')) ++ "/" ++ workspacePath)

/-- A path without a backslash in it. -/
def Slashed (p : Path) : Prop := ∀ a ∈ p, '\\' ∉ a.toList

instance (p : Path) : Decidable (Slashed p) :=
  inferInstanceAs (Decidable (∀ a ∈ p, '\\' ∉ a.toList))

theorem Slashed.splitPath {p : Path} (h : Slashed p) : Slashed (splitPath p) := by
  intro a ha
  obtain ha | ⟨b, hb, rfl, -⟩ := mem_splitPath ha
  · exact h a ha
  · exact fun hmem => h b hb (subset_trimSpaceRight b hmem)

/-! ## Paths of proper segments -/

section Proper

variable {p m : Path}

theorem slashed_eq_self {s : String} (h : '\\' ∉ s.toList) : slashed s = s := by
  have hmap : s.toList.map (fun c => if c = '\\' then '/' else c) = s.toList := by
    conv_rhs => rw [← map_id s.toList]
    refine map_congr_left fun c hc => ?_
    rw [if_neg (ne_of_mem_of_not_mem hc h), id]
  rw [slashed, hmap, String.ofList_toList]

theorem joinParts_cons_cons (a b : String) (p : Path) :
    (joinParts (a :: b :: p)).toList = a.toList ++ '/' :: (joinParts (b :: p)).toList := by
  simp [toList_joinParts]

theorem mem_joinParts {c : Char} (hc : c ≠ '/') (h : c ∈ (joinParts p).toList) :
    ∃ a ∈ p, c ∈ a.toList := by
  induction p with
  | nil => simp [joinParts] at h
  | cons a p ih =>
    cases p with
    | nil => exact ⟨a, mem_cons_self, by simpa [toList_joinParts, List.intercalate] using h⟩
    | cons b p =>
      rw [joinParts_cons_cons, mem_append, mem_cons] at h
      rcases h with h | h | h
      · exact ⟨a, mem_cons_self, h⟩
      · exact absurd h hc
      · obtain ⟨x, hx, hmem⟩ := ih h
        exact ⟨x, mem_cons_of_mem a hx, hmem⟩

theorem slashed_joinParts (hs : Slashed p) : slashed (joinParts p) = joinParts p :=
  slashed_eq_self fun h => by
    obtain ⟨a, ha, hmem⟩ := mem_joinParts (by decide) h
    exact hs a ha hmem

theorem slashed_renderPath (hs : Slashed p) : slashed (renderPath p) = renderPath p := by
  refine slashed_eq_self fun h => ?_
  rw [renderPath, String.toList_append, mem_append] at h
  rcases h with h | h
  · revert h
    decide
  · obtain ⟨a, ha, hmem⟩ := mem_joinParts (by decide) h
    exact hs a ha hmem

theorem isPrefixOf_renderPath (p : Path) : ['/'].isPrefixOf (renderPath p).toList = true := by
  rw [renderPath, isPrefixOf_iff_prefix, String.toList_append]
  exact prefix_append _ _

theorem renderPath_ne_empty (p : Path) : renderPath p ≠ "" := by
  intro h
  have hslash := isPrefixOf_renderPath p
  rw [h] at hslash
  cases hslash

theorem trimStart_renderPath (p : Path) : trimStart "/" (renderPath p) = joinParts p := by
  rw [trimStart, if_pos, renderPath, String.toList_append, drop_left, String.ofList_toList]
  exact isPrefixOf_renderPath p

section

variable (hp : ∀ a ∈ p, validSegment a = true)
include hp

theorem foldl_cleanStep (segments : Path) :
    (p.map String.toList).foldl cleanStep segments = segments ++ p := by
  induction p generalizing segments with
  | nil => simp
  | cons a p ih =>
    rw [forall_mem_cons] at hp
    have ha := hp.1
    simp only [validSegment, Bool.and_eq_true, bne_iff_ne] at ha
    obtain ⟨⟨⟨hempty, hdot⟩, hdots⟩, -⟩ := ha
    have hstep : cleanStep segments a.toList = segments ++ [a] := by
      rw [cleanStep, if_neg, if_neg, String.ofList_toList]
      · exact fun h => hdots (String.toList_inj.mp h)
      · rintro (h | h)
        · exact hempty (String.toList_inj.mp h)
        · exact hdot (String.toList_inj.mp h)
    rw [map_cons, foldl_cons, hstep, ih hp.2, append_assoc, singleton_append]

section

variable (hne : p ≠ [])
include hne

theorem joinParts_ne_empty : joinParts p ≠ "" := fun h =>
  hne (joinParts_injective hp (fun _ h => nomatch h) (h.trans rfl))

theorem isPrefix_joinParts {c : List Char}
    (hc : '/' ∉ c) :
    c ++ ['/'] <+: (joinParts p).toList ↔ 2 ≤ p.length ∧ p.head? = some (String.ofList c) := by
  constructor
  · rintro ⟨t, ht⟩
    have hsplit := splitOn_joinParts hp hne
    have hfree : ∀ x ∈ c, (x == '/') = false := fun x hx => by
      simpa using ne_of_mem_of_not_mem hx hc
    rw [← ht, append_assoc, singleton_append, List.splitOn,
      splitOnP_append_cons_of_forall_mem hfree '/' (by decide)] at hsplit
    cases p with
    | nil => exact absurd rfl hne
    | cons a p =>
      obtain ⟨ha, hrest⟩ := cons_eq_cons.mp hsplit
      have hp' : p ≠ [] := by
        rintro rfl
        exact splitOnP_ne_nil _ _ hrest
      refine ⟨?_, by rw [ha, String.ofList_toList]; rfl⟩
      have := length_pos_of_ne_nil hp'
      simp only [length_cons]
      omega
  · rintro ⟨hlen, hhead⟩
    match p, hlen, hhead with
    | a :: b :: rest, _, hhead =>
      have ha : a.toList = c := by
        rw [Option.some.inj hhead, String.toList_ofList]
      rw [joinParts_cons_cons, ha]
      exact ⟨(joinParts (b :: rest)).toList, by simp⟩

theorem not_isPrefixOf_joinParts : ¬ ['/'].isPrefixOf (joinParts p).toList = true := by
  rw [show ['/'] = [] ++ ['/'] from rfl, isPrefixOf_iff_prefix,
    isPrefix_joinParts hp hne (by decide)]
  rintro ⟨-, hhead⟩
  have := hp _ (mem_of_mem_head? hhead)
  revert this
  decide

theorem trimStart_joinParts : trimStart "./" (joinParts p) = joinParts p := by
  rw [trimStart, if_neg]
  rw [show "./".toList = ['.'] ++ ['/'] from rfl, isPrefixOf_iff_prefix,
    isPrefix_joinParts hp hne (by decide)]
  rintro ⟨-, hhead⟩
  have hdot := hp _ (mem_of_mem_head? hhead)
  revert hdot
  decide

theorem cleanRooted_renderPath : cleanRooted (renderPath p) = p := by
  rw [cleanRooted, renderPath, String.toList_append, show "/".toList = ['/'] from rfl,
    singleton_append, List.splitOn, splitOnP_cons_eq_if_modifyHead, if_pos (by decide), foldl_cons,
    ← List.splitOn, splitOn_joinParts hp hne, foldl_cleanStep hp]
  rfl

theorem canonicalize_renderPath (hs : Slashed p) : canonicalize (renderPath p) = .ok p := by
  rw [canonicalize, if_neg (renderPath_ne_empty p)]
  simp only [slashed_renderPath hs, isPrefixOf_renderPath, if_true, cleanRooted_renderPath hp hne,
    if_neg hne]

theorem canonicalPath_renderPath (hs : Slashed p) :
    canonicalPath (renderPath p) = if p.length < 2 then
      .error ("path must include account and slice segments: " ++ quote (renderPath p)) else .ok p := by
  rw [canonicalPath, canonicalize_renderPath hp hne hs]
  rfl

theorem canonicalPath_joinParts (hs : Slashed p)
    (hlen : 2 ≤ p.length) : canonicalPath (joinParts p) = .ok p := by
  rw [canonicalPath, canonicalize, if_neg (joinParts_ne_empty hp hne)]
  simp only [slashed_joinParts hs, if_neg (not_isPrefixOf_joinParts hp hne)]
  rw [show "/" ++ joinParts p = renderPath p from rfl, cleanRooted_renderPath hp hne, if_neg hne]
  show (if p.length < 2 then _ else _) = _
  rw [if_neg (by omega)]

end

end

section

variable (hm : ∀ a ∈ m, validSegment a = true)
include hm

/-- The first segment of a path, as `FromWorkspacePath` finds the account. -/
theorem account_renderPath :
    ((trimStart "/" (renderPath m)).toList.splitOn '/').headD [] = (m.head?.getD "").toList := by
  rw [trimStart_renderPath]
  cases m with
  | nil => rfl
  | cons a m =>
    rw [splitOn_joinParts hm (cons_ne_nil a m)]
    rfl

theorem rdropWhile_renderPath (hne : m ≠ []) :
    (renderPath m).toList.rdropWhile (· = '/') = (renderPath m).toList := by
  obtain ⟨m, a, rfl⟩ := eq_nil_or_concat' m |>.resolve_left hne
  have ha := hm a (mem_append_right m mem_cons_self)
  -- the last character is one of the last segment
  obtain ⟨t, ht⟩ : ∃ t, (renderPath (m ++ [a])).toList = t ++ a.toList := by
    have hsingle : joinParts [a] = a := String.toList_inj.mp (by simp [toList_joinParts])
    by_cases hnil : m = []
    · subst hnil
      exact ⟨['/'], by rw [renderPath, String.toList_append]; rfl⟩
    · refine ⟨(renderPath m).toList ++ ['/'], ?_⟩
      rw [renderPath, joinParts_append hnil (cons_ne_nil a []), hsingle]
      simp [renderPath]
  have hempty : a.toList ≠ [] := by
    intro h
    have : a = "" := String.toList_inj.mp h
    rw [this] at ha
    revert ha
    decide
  obtain ⟨s, c, hsc⟩ := eq_nil_or_concat' a.toList |>.resolve_left hempty
  have hc : c ≠ '/' := by
    rintro rfl
    exact no_slash ha (by rw [hsc]; exact mem_append_right s mem_cons_self)
  rw [ht, hsc]
  simpa using hc

/-- **What `FromWorkspacePath` makes of a proper path** under the prefix `m`: the path below the
prefix, or the path itself when it begins with the prefix's account. -/
theorem fromWorkspacePath_joinParts (hsm : Slashed m)
    (hp : ∀ a ∈ p, validSegment a = true) (hsp : Slashed p) (hne : p ≠ []) :
    fromWorkspacePath (renderPath m) (joinParts p) =
      if 2 ≤ p.length ∧ p.head? = m.head? then .ok p
      else if (m ++ p).length < 2 then
        .error ("path must include account and slice segments: " ++ quote (renderPath (m ++ p)))
      else .ok (m ++ p) := by
  have hhead : 2 ≤ p.length → (p.head? = some (m.head?.getD "") ↔ p.head? = m.head?) := by
    intro _
    cases m with
    | nil =>
      obtain ⟨a, p, rfl⟩ := exists_cons_of_ne_nil hne
      have ha : a ≠ "" := by
        rintro rfl
        exact absurd (hp "" mem_cons_self) (by decide)
      simpa using ha
    | cons b m => exact Iff.rfl
  have haccount : '/' ∉ (m.head?.getD "").toList := by
    cases m with
    | nil => exact fun h => nomatch h
    | cons b m => exact no_slash (hm b mem_cons_self)
  rw [fromWorkspacePath]
  simp only [slashed_joinParts hsp, trimStart_joinParts hp hne, account_renderPath hm,
    isPrefixOf_iff_prefix, isPrefix_joinParts hp hne haccount, String.ofList_toList, if_neg (joinParts_ne_empty hp hne)]
  by_cases hacc : 2 ≤ p.length ∧ p.head? = m.head?
  · rw [if_pos hacc, if_pos ⟨hacc.1, (hhead hacc.1).mpr hacc.2⟩]
    exact canonicalPath_joinParts hp hne hsp hacc.1
  · rw [if_neg hacc, if_neg fun h => hacc ⟨h.1, (hhead h.1).mp h.2⟩]
    have hjoin : String.ofList ((renderPath m).toList.rdropWhile (· = '/')) ++ "/" ++ joinParts p =
        renderPath (m ++ p) := by
      by_cases hnil : m = []
      · subst hnil
        rfl
      · rw [rdropWhile_renderPath hm hnil, String.ofList_toList, renderPath, renderPath,
          joinParts_append hnil hne]
        apply String.toList_inj.mp
        simp
    have hmp : ∀ a ∈ m ++ p, validSegment a = true := fun a ha =>
      (mem_append.mp ha).elim (hm a) (hp a)
    have hsmp : Slashed (m ++ p) := fun a ha => (mem_append.mp ha).elim (hsm a) (hsp a)
    rw [hjoin, canonicalPath_renderPath hmp (by simp [hne]) hsmp]

end

end Proper

/-! ## Paths that are accepted -/

/-- The segments of a canonical text. -/
structure Segments (p : Path) : Prop where
  valid : ∀ a ∈ p, validSegment a = true
  slashed : Slashed p
  ne_nil : p ≠ []

variable {s : String} {a : Path}

theorem mem_cleanRooted {x : String} (h : x ∈ cleanRooted s) :
    validSegment x = true ∧ x.toList ⊆ s.toList := by
  -- every segment that is kept is a part of the text between slashes
  refine foldlRecOn (motive := fun segments => ∀ x ∈ segments, validSegment x = true ∧ x.toList ⊆ s.toList)
    _ cleanStep (by simp) (fun segments hsegments v hv => ?_) x h
  unfold cleanStep
  split_ifs with hskip hup
  · exact hsegments
  · exact fun x hx => hsegments x (mem_of_mem_dropLast hx)
  · refine forall_mem_append.mpr ⟨hsegments, forall_mem_singleton.mpr ⟨?_, ?_⟩⟩
    · rw [not_or] at hskip
      simp [validSegment, ← String.toList_inj, hskip, hup, Infix.notMem_of_mem_splitOn hv]
    · rw [String.toList_ofList]
      exact (Infix.infix_of_mem_splitOn hv).subset

theorem backslash_notMem_slashed (p : String) : '\\' ∉ (slashed p).toList := by
  rw [slashed, String.toList_ofList, mem_map]
  rintro ⟨x, -, hx⟩
  split_ifs at hx with hslash
  · cases hx
  · exact hslash hx

theorem canonicalize_ok {p : String} (h : canonicalize p = .ok a) : Segments a := by
  unfold canonicalize at h
  split at h
  · cases h
  · have hback : '\\' ∉ (if ['/'].isPrefixOf (slashed p).toList then slashed p else "/" ++ slashed p).toList := by
      split
      · exact backslash_notMem_slashed p
      · rw [String.toList_append, mem_append]
        exact fun h => h.elim (by decide) (backslash_notMem_slashed p)
    dsimp only at h
    generalize (if ['/'].isPrefixOf (slashed p).toList then slashed p else "/" ++ slashed p) = t at h hback
    split_ifs at h with hroot
    cases h
    exact ⟨fun x hx => (mem_cleanRooted hx).1,
      fun x hx hmem => hback ((mem_cleanRooted hx).2 hmem), hroot⟩

theorem fromWorkspacePath_ok {root : String} (h : fromWorkspacePath root s = .ok a) :
    Segments a := by
  have hcanonical : ∀ {t : String}, canonicalPath t = .ok a → Segments a := by
    intro t ht
    obtain ⟨b, hb, hret⟩ := Except.bind_eq_ok.mp ht
    split_ifs at hret
    cases hret
    exact canonicalize_ok hb
  unfold fromWorkspacePath at h
  dsimp only at h
  split_ifs at h <;> exact hcanonical h

end GitSlice
