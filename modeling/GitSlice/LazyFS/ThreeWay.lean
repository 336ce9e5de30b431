import GitSlice.LazyFS.Moves

/-! # Rebase as a three-way move
`outcome` says what each path has to show after a rebase: the new base where the user changed
nothing, and otherwise what the two sides or the merge decide for the path. The outcomes are per
path and can contradict each other: a file below a file, or one of the user's directories where a
file has to be. A successful `Rebase` shows every outcome exactly when they do not, and when the
merge, which is also asked where both bases have a directory, keeps a file the user has put in its
place (`Consistent`). Otherwise it may hide a file of the new base without asking. -/

namespace GitSlice.LazyFS.FS

open Option

variable {c : Content} {s s' : FS} {newBase : Manifest} {merge : MergeFunc} {found : List Edit}
  {r : Rebasing} {p q : Path}

/-- The file or symlink of what is shown. -/
def fileOf (o : Option Obj) : Option Obj := o.filter fun o => o.kind ≠ .dir

/-- The file or symlink of a base at a path. -/
def baseFile (c : Content) (base : Manifest) (p : Path) : Option Obj :=
  (fileEntry (base.lookup p)).map (baseObj c)

/-- The new base left the path alone: it has the file or symlink of the old base, a directory where
the old base had one, or nothing where there was no file. -/
def leftAlone (old new : Manifest) (p : Path) : Bool :=
  match new.lookup p with
  | none => !(old.lookup p).any fun a => a.kind ≠ .dir
  | some b => (old.lookup p).any fun a => (a.kind = .dir ∧ b.kind = .dir) ∨
      (b.kind ≠ .dir ∧ a.kind = b.kind ∧ a.mode = b.mode ∧ a.contentHash = b.contentHash ∧
        a.target = b.target)

/-- The new base made the user's change. -/
def sameChange (new : Manifest) (p : Path) : Change → Bool
  | .delete => (new.lookup p).isNone
  | .upsert hash mode _ => (new.lookup p).any fun b => b.kind ≠ .dir ∧ b.contentHash = hash ∧ b.mode = mode

/-- What a path has to show when the merge is asked about it. -/
def answered (c : Content) (s : FS) (newBase : Manifest) (merge : MergeFunc) (p : Path)
    (change : Change) :
    Option Obj :=
  match merge ⟨p, fileEntry (s.base.lookup p), newBase.lookup p, ⟨p, change⟩⟩ with
  | .error _ => none
  | .ok answer =>
    if answer.keep then fileOf (s.view c p)
    else if answer.theirs then baseFile c newBase p
    else if answer.delete then none
    else some (.file (normalizeFileMode answer.mode) answer.content)

/-- What a path has to show after a rebase. -/
def outcome (c : Content) (s : FS) (newBase : Manifest) (merge : MergeFunc) (p : Path) :
    Option Obj :=
  match difference c s p with
  | none => baseFile c newBase p
  | some change =>
    if leftAlone s.base newBase p then fileOf (s.view c p)
    else if sameChange newBase p change then baseFile c newBase p
    else answered c s newBase merge p change

/-- The outcomes make a tree: no file lies under a file, and none of the user's directories has to
be one at or under a file. Where the user has a file in the place of a directory of both bases, the
merge keeps it. -/
structure Consistent (c : Content) (s : FS) (newBase : Manifest) (merge : MergeFunc) : Prop where
  files : ∀ p q, outcome c s newBase merge p ≠ none → outcome c s newBase merge q ≠ none →
    p <+: q → p = q
  dirs : ∀ p d, outcome c s newBase merge p ≠ none → OwnDir newBase s d → ¬ p <+: d
  replaced : ∀ p change, difference c s p = some change → isDirEntry (s.base.lookup p) = true →
    isDirEntry (newBase.lookup p) = true → answered c s newBase merge p change = fileOf (s.view c p)

/-- A workspace `s'` is the **three-way move** of `s`: it shows every outcome, and a file that the
new base added or changed is shown and is no delete, unless the merge has to be asked about its
path. -/
structure ThreeWay (c : Content) (s : FS) (newBase : Manifest) (merge : MergeFunc) (s' : FS) : Prop where
  reads : Shows c s' (s'.view c)
  shows : ∀ p, fileOf (s'.view c p) = outcome c s newBase merge p
  unasked : ∀ p b, newBase.lookup p = some b → b.kind ≠ .dir → leftAlone s.base newBase p = false →
    (∀ change, difference c s p = some change → sameChange newBase p change = true) →
    s'.view c p = some (baseObj c b) ∧ difference c s' p ≠ some .delete

theorem fileOf_baseObj (c : Content) (o : Option BaseEntry) :
    fileOf (o.map (baseObj c)) = (fileEntry o).map (baseObj c) := by
  cases o with
  | none => rfl
  | some b => by_cases hk : b.kind = .dir <;> simp [fileOf, fileEntry, Option.filter, hk]

variable {e : LocalEntry}

theorem fileOf_entryObj (files : Table Nat Bytes) (he : ∀ isOpaque, e ≠ .dir isOpaque) :
    fileOf (entryObj c files e) = entryObj c files e := by
  cases e with
  | dir isOpaque => exact absurd rfl (he isOpaque)
  | _ => rfl

theorem exists_of_baseFile {base : Manifest} (h : baseFile c base p ≠ none) :
    ∃ b, base.lookup p = some b ∧ b.kind ≠ .dir := by
  rw [baseFile, ne_eq, map_eq_none_iff, ← ne_eq, ne_none_iff_exists'] at h
  obtain ⟨b, hb⟩ := h
  obtain ⟨hlookup, hkind⟩ := filter_eq_some_iff.mp hb
  exact ⟨b, hlookup, by simpa using hkind⟩

/-! ## The outcome of an edit -/

theorem IsEdit.fileOf_view (hs : s.Sound) {edit : Edit} (h : IsEdit c s edit)
    (hdelete : edit.change = .delete) : fileOf (s.view c edit.path) = none := by
  rcases h.shown hs with ⟨-, hall⟩ | ⟨hchange, -⟩
  · rw [view_eq_lookup]
    cases hl : s.lookup edit.path with
    | none => rfl
    | some n =>
      rw [hl] at hall
      simpa [fileOf, Option.filter] using hall
  · exact absurd hdelete hchange

/-- What the first loop has a path show: its entry, or the new base. -/
def placedObj (c : Content) (newBase : Manifest) (r : Rebasing) (p : Path) : Option Obj :=
  match r.next.get p with
  | none => baseFile c newBase p
  | some e => entryObj c r.files e

/-- What a path shows when an edit is carried over. -/
def shownBy (c : Content) (s : FS) (newBase : Manifest) (p : Path) : Resolution → Option Obj
  | .ours => fileOf (s.view c p)
  | .theirs => baseFile c newBase p
  | .delete => none
  | .content data mode => some (.file (normalizeFileMode mode) data)

/-- **The first loop places** what an edit is resolved to. -/
theorem Carried.placed_edit (hs : s.Sound) (hmem : ∀ e, e ∈ found ↔ IsEdit c s e)
    (h : Carried s newBase merge found r) {change : Change} (hd : difference c s p = some change) :
    ∃ resolution conflict, s.resolveEdit newBase merge ⟨p, change⟩ = .ok (resolution, conflict) ∧
      placedObj c newBase r p = shownBy c s newBase p resolution := by
  have hedit : IsEdit c s ⟨p, change⟩ := hd
  obtain ⟨resolution, conflict, hresolve, hplaced⟩ := h.placed _ ((hmem _).mpr hedit)
  refine ⟨resolution, conflict, hresolve, ?_⟩
  rw [placedObj]
  have hplacedEntry : ∀ e, (match placedEntry newBase p e with
      | none => baseFile c newBase p
      | some e => entryObj c r.files e) = entryObj c r.files e := by
    intro e
    rw [placedEntry]
    split_ifs with hnone
    · obtain ⟨rfl, hfile⟩ := hnone
      rw [baseFile, isNone_iff_eq_none.mp hfile]
      rfl
    · rfl
  cases resolution with
  | theirs =>
    rw [show r.next.get p = none from hplaced]
    rfl
  | delete =>
    rw [show r.next.get p = placedEntry newBase p .whiteout from hplaced]
    exact hplacedEntry .whiteout
  | content data mode =>
    obtain ⟨name, hentry, hdata⟩ := hplaced
    rw [show r.next.get p = some (.file (normalizeFileMode mode) name) from hentry]
    simp [entryObj, hdata, shownBy]
  | ours =>
    rw [show r.next.get p = placedEntry newBase p (s.entryForEdit ⟨p, change⟩) from hplaced,
      hplacedEntry, shownBy]
    rcases hedit.entryForEdit hs with ⟨hdelete, he⟩ | ⟨-, he⟩
    · rw [he]
      exact (hedit.fileOf_view hs hdelete).symm
    · rw [show s.view c p = _ from he.symm, fileOf_entryObj _ (hedit.normal hs).2]
      -- the local file the edit reuses has not changed
      cases hentry : s.entryForEdit ⟨p, change⟩ with
      | file mode name =>
        rw [entryObj, entryObj, h.kept name (hs.name_lt (hedit.file hs hentry))]
      | _ => rfl

/-- The code's test leaves out the directories that both bases have. -/
theorem sameBaseEntry_eq (old new : Manifest) (p : Path) :
    sameBaseEntry (fileEntry (old.lookup p)) (new.lookup p) =
      (leftAlone old new p && !isDirEntry (new.lookup p)) := by
  rw [leftAlone]
  cases hnew : new.lookup p with
  | none =>
    cases hold : old.lookup p with
    | none => rfl
    | some a => by_cases ha : a.kind = .dir <;> simp [sameBaseEntry, fileEntry, isDirEntry, ha, Option.filter]
  | some b =>
    cases hold : old.lookup p with
    | none => simp [sameBaseEntry, fileEntry]
    | some a =>
      by_cases hb : b.kind = .dir
      · by_cases ha : a.kind = .dir <;> simp [sameBaseEntry, fileEntry, isDirEntry, ha, hb,
          Option.filter]
      · by_cases ha : a.kind = .dir
        · simp [sameBaseEntry, fileEntry, isDirEntry, ha, hb, Ne.symm hb, Option.filter]
        · simp [sameBaseEntry, fileEntry, isDirEntry, ha, hb, Option.filter]

theorem editMatches_eq (new : Manifest) (p : Path) (change : Change) :
    editMatches ⟨p, change⟩ (new.lookup p) = sameChange new p change := by
  cases change <;> rfl

theorem leftAlone_of_dirs {old new : Manifest} (hold : isDirEntry (old.lookup p) = true)
    (hnew : isDirEntry (new.lookup p) = true) : leftAlone old new p = true := by
  obtain ⟨a, ha, hakind⟩ := Option.any_eq_true _ _ |>.mp hold
  obtain ⟨b, hb, hbkind⟩ := Option.any_eq_true _ _ |>.mp hnew
  simp [leftAlone, ha, hb, of_decide_eq_true hakind, of_decide_eq_true hbkind]

/-- What the merge decides, when the code asks it. -/
theorem shownBy_asked {change : Change} {resolution : Resolution} {conflict : Bool}
    (hsame : sameBaseEntry (fileEntry (s.base.lookup p)) (newBase.lookup p) = false)
    (hmatch : sameChange newBase p change = false)
    (h : s.resolveEdit newBase merge ⟨p, change⟩ = .ok (resolution, conflict)) :
    shownBy c s newBase p resolution = answered c s newBase merge p change := by
  rw [answered]
  rw [resolveEdit] at h
  simp only [hsame, editMatches_eq, hmatch, Bool.false_eq_true, if_false] at h
  split at h
  · cases h
  · rename_i answer hanswer
    cases h
    simp only [hanswer, MergeResult.resolution]
    split_ifs <;> rfl

section

variable (hs : s.Sound) (hmem : ∀ e, e ∈ found ↔ IsEdit c s e) (h : Carried s newBase merge found r)
include hs hmem h

/-- Where both bases have a directory, the merge is asked. -/
theorem Carried.placed_replaced {change : Change} (hd : difference c s p = some change)
    (hnew : isDirEntry (newBase.lookup p) = true) :
    placedObj c newBase r p = answered c s newBase merge p change := by
  obtain ⟨resolution, conflict, hresolve, hplaced⟩ := h.placed_edit hs hmem hd
  rw [hplaced]
  refine shownBy_asked (by rw [sameBaseEntry_eq, hnew, Bool.not_true, Bool.and_false]) ?_ hresolve
  obtain ⟨b, hb, hkind⟩ := Option.any_eq_true _ _ |>.mp hnew
  cases change <;> simp [sameChange, hb, of_decide_eq_true hkind]

/-- **The first loop places the outcome**, but where both bases have a directory. -/
theorem Carried.placed_eq (hreplaced : ∀ change, difference c s p = some change →
      isDirEntry (s.base.lookup p) = true → isDirEntry (newBase.lookup p) = true →
      answered c s newBase merge p change = fileOf (s.view c p)) :
    placedObj c newBase r p = outcome c s newBase merge p := by
  rw [outcome]
  cases hd : difference c s p with
  | none =>
    have hnone : r.next.get p = none := by
      refine h.others p fun e he heq => ?_
      have hedit : difference c s e.path = some e.change := (hmem e).mp he
      rw [heq, hd] at hedit
      cases hedit
    rw [placedObj, hnone]
  | some change =>
    dsimp only
    by_cases hdir : isDirEntry (newBase.lookup p) = true
    · rw [h.placed_replaced hs hmem hd hdir]
      by_cases hold : isDirEntry (s.base.lookup p) = true
      · rw [hreplaced change hd hold hdir, if_pos (leftAlone_of_dirs hold hdir)]
      · obtain ⟨b, hb, hbkind⟩ := Option.any_eq_true _ _ |>.mp hdir
        have hkind := of_decide_eq_true hbkind
        have halone : leftAlone s.base newBase p = false := by
          rw [leftAlone, hb]
          simpa [isDirEntry, hkind] using hold
        have hmatch : sameChange newBase p change = false := by
          cases change <;> simp [sameChange, hb, hkind]
        simp [halone, hmatch]
    · have hsame := sameBaseEntry_eq s.base newBase p
      rw [Bool.not_eq_true] at hdir
      rw [hdir, Bool.not_false, Bool.and_true] at hsame
      obtain ⟨resolution, conflict, hresolve, hplaced⟩ := h.placed_edit hs hmem hd
      rw [hplaced]
      cases halone : leftAlone s.base newBase p with
      | true =>
        rw [resolveEdit] at hresolve
        simp only [hsame, halone, if_true] at hresolve
        cases hresolve
        rfl
      | false =>
        cases hmatch : sameChange newBase p change with
        | true =>
          rw [resolveEdit] at hresolve
          simp only [hsame, halone, editMatches_eq, hmatch, Bool.false_eq_true, if_false,
            if_true] at hresolve
          cases hresolve
          rfl
        | false => exact shownBy_asked (hsame.trans halone) hmatch hresolve

end

theorem Carried.whiteout (h : Carried s newBase merge found r)
    (hp : r.next.get p = some .whiteout) :
    fileEntry (newBase.lookup p) ≠ none := by
  obtain ⟨edit, hedit, rfl⟩ := h.exists_edit (by rw [hp]; simp)
  obtain ⟨resolution, conflict, -, hplaced⟩ := h.placed edit hedit
  rw [hp] at hplaced
  have hfile : ∀ {e : LocalEntry}, some LocalEntry.whiteout = placedEntry newBase edit.path e →
      fileEntry (newBase.lookup edit.path) ≠ none := by
    intro e he hnone
    rw [placedEntry, hnone] at he
    split_ifs at he with hw
    exact hw ⟨(Option.some.inj he).symm, rfl⟩
  cases resolution with
  | ours | delete => exact hfile hplaced
  | theirs => cases hplaced
  | content =>
    obtain ⟨name, he, -⟩ := hplaced
    cases he

/-! ## The layer that is made -/

/-- What the first loop places makes a tree, with the user's directories. -/
structure Placeable (c : Content) (s : FS) (newBase : Manifest) (r : Rebasing) : Prop where
  files : ∀ p q, placedObj c newBase r p ≠ none → placedObj c newBase r q ≠ none → p <+: q → p = q
  dirs : ∀ p d, placedObj c newBase r p ≠ none → OwnDir newBase s d → ¬ p <+: d

section Layer

variable (hs : s.Sound)
include hs

section

variable {n : Table Path LocalEntry} (hgathered : Gathered newBase (s.keepDirs newBase r.next) n)
include hgathered

/-- What is not hidden in the layer is one of the user's directories or was placed. -/
theorem entry_cases (c : Content) (hw : e ≠ .whiteout) (he : n.get q = some e) :
    (e = .dir false ∧ OwnDir newBase s q) ∨
      (r.next.get q = some e ∧ placedObj c newBase r q ≠ none) := by
  have hdirs := (hgathered.kept q e hw).mp he
  rw [get_keepDirs hs] at hdirs
  split_ifs at hdirs with hown
  · exact .inl ⟨(Option.some.inj hdirs).symm, hown⟩
  · refine .inr ⟨hdirs, ?_⟩
    rw [placedObj, hdirs]
    exact entryObj_ne_none.mpr hw

theorem get_ownDir (hown : OwnDir newBase s p) :
    (addParentDirs newBase n).get p = some (.dir false) := by
  have hdir : (s.keepDirs newBase r.next).get p = some (.dir false) := by
    rw [get_keepDirs hs, if_pos hown]
  rw [get_addParentDirs, (hgathered.kept p _ (by simp)).mpr hdir]
  split_ifs <;> rfl

section

variable (htree : Placeable c s newBase r) (hp : placedObj c newBase r p ≠ none)
include htree hp

theorem not_needs : ¬ Needs n p := by
  rintro ⟨q, e, he, hw, hle, hne, -⟩
  rcases entry_cases hs hgathered c hw he with ⟨-, hown⟩ | ⟨-, hq⟩
  · exact htree.dirs p q hp hown hle
  · exact hne (htree.files p q hp hq hle)

theorem get_layer : (addParentDirs newBase n).get p = r.next.get p := by
  have hown : ¬ OwnDir newBase s p := fun hown => htree.dirs p p hp hown (List.prefix_refl p)
  have hdirs : (s.keepDirs newBase r.next).get p = r.next.get p := by
    rw [get_keepDirs hs, if_neg hown]
  rw [get_addParentDirs, if_neg (not_needs hs hgathered htree hp)]
  rw [placedObj] at hp
  cases hnext : r.next.get p with
  | some e =>
    rw [hnext] at hp
    exact (hgathered.kept p e (entryObj_ne_none.mp hp)).mpr (hdirs.trans hnext)
  | none =>
    rw [hnext] at hp
    by_contra hne
    obtain ⟨e, he⟩ := ne_none_iff_exists'.mp hne
    by_cases hw : e = .whiteout
    · subst hw
      rcases hgathered.whole p he with hwhite | ⟨-, hdir, -⟩
      · rw [hdirs, hnext] at hwhite
        cases hwhite
      · -- the new base has a file here
        obtain ⟨b, hb, hk⟩ := exists_of_baseFile hp
        simp [isDirEntry, hb, hk] at hdir
    · have hold := (hgathered.kept p e hw).mp he
      rw [hdirs, hnext] at hold
      cases hold

theorem clear_above (hcarried : Carried s newBase merge found r) (hnext : r.next.get p = none)
    {d : Path} (hd : d <+: p) (hne : d ≠ p) : Clear (addParentDirs newBase n) d := by
  have hown : ¬ OwnDir newBase s p := fun hown => htree.dirs p p hp hown (List.prefix_refl p)
  -- the file of the new base that has to show
  have hfile : baseFile c newBase p ≠ none := by rwa [placedObj, hnext] at hp
  obtain ⟨b, hb, hbkind⟩ := exists_of_baseFile hfile
  cases he : (addParentDirs newBase n).get d with
  | none => exact .inl he
  | some e =>
    rcases addParentDirs_cases he with hget | ⟨rfl, -⟩
    · by_cases hw : e = .whiteout
      · subst hw
        exfalso
        rcases hgathered.whole d hget with hwhite | ⟨-, -, hfiles⟩
        · rw [get_keepDirs hs] at hwhite
          split_ifs at hwhite
          · cases hwhite
          · obtain ⟨b', hb', hkind'⟩ := Manifest.lookup_above (by rw [hb]; simp) hd hne
            have hfile := hcarried.whiteout hwhite
            simp [fileEntry, hb', hkind'] at hfile
        · have hwhite := hfiles p b hb hbkind (isUnder_iff.mpr ⟨hd, hne.symm⟩)
          rw [get_keepDirs hs, if_neg hown, hnext] at hwhite
          cases hwhite
      · rcases entry_cases hs hgathered c hw hget with ⟨rfl, -⟩ | ⟨-, hq⟩
        · exact .inr he
        · exact absurd (htree.files d p hq hp hd) hne
    · exact .inr he

end

omit hs hgathered in
theorem get_layer_ne_none (he : n.get p = some e) : (addParentDirs newBase n).get p ≠ none := by
  rw [get_addParentDirs, he]
  split_ifs
  · cases e <;> simp [asDir]
  · simp

theorem hidden_or_entry (hp : r.next.get p = some .whiteout)
    (hroot : (addParentDirs newBase n).get [] = none) :
    (addParentDirs newBase n).get p ≠ none ∨
      ∃ d, d <+: p ∧ d ≠ p ∧ d ≠ [] ∧
        ¬ Clear (addParentDirs newBase n) d := by
  by_cases hown : OwnDir newBase s p
  · exact .inl (by simp [get_ownDir hs hgathered hown])
  · have hwhite : (s.keepDirs newBase r.next).get p = some .whiteout := by
      rw [get_keepDirs hs, if_neg hown, hp]
    obtain ⟨d, hle, hd, hunder⟩ := hgathered.hidden p hwhite
    by_cases heq : d = p
    · exact .inl (get_layer_ne_none (heq ▸ hd))
    · refine .inr ⟨d, hle, heq, ?_, ?_⟩
      · rintro rfl
        exact get_layer_ne_none hd hroot
      · have hneeds : ¬ Needs n d := by
          rintro ⟨x, e, he, hw, hx, hne, -⟩
          refine hw ((hunder.resolve_left heq) x e ((hgathered.kept x e hw).mp he) ?_)
          exact isUnder_iff.mpr ⟨hx, hne.symm⟩
        rw [Clear, get_addParentDirs, if_neg hneeds, hd]
        simp

end

/-- The workspace after a rebase, from what the loops have done. -/
def rebasedLayer (newBase : Manifest) (s : FS) (r : Rebasing) : FS :=
  s.replaceLayer newBase (addParentDirs newBase (s.keepDeleted newBase (s.keepDirs newBase r.next))) r.used
    r.files r.nextName

variable (hmem : ∀ e, e ∈ found ↔ IsEdit c s e) (hcarried : Carried s newBase merge found r)
  (hgathered : Gathered newBase (s.keepDirs newBase r.next)
    (s.keepDeleted newBase (s.keepDirs newBase r.next))) (hp : p ≠ [])
include hmem hcarried hgathered hp

omit hgathered in
theorem view_of_next (hget : (rebasedLayer newBase s r).entries.get p = some e)
    (hnext : r.next.get p = some e) :
    fileOf ((rebasedLayer newBase s r).view c p) = placedObj c newBase r p := by
  have hplain := (hcarried.normal hs (fun e he => (hmem e).mp he) hnext).2.2
  rw [view_of_entry hp hget, fileOf_entryObj _ hplain, placedObj, hnext]
  cases e with
  | file mode name =>
    have hfiles : (rebasedLayer newBase s r).files.get name = r.files.get name :=
      files_replaceLayer _ _ _ _ _ _ (hcarried.present p mode name hnext).1
    simp only [entryObj, hfiles]
  | _ => rfl

theorem view_of_placed (htree : Placeable c s newBase r) (hfile : placedObj c newBase r p ≠ none) :
    fileOf ((rebasedLayer newBase s r).view c p) = placedObj c newBase r p := by
  have hget : (rebasedLayer newBase s r).entries.get p = r.next.get p :=
    get_layer hs hgathered htree hfile
  cases hnext : r.next.get p with
  | some e => exact view_of_next hs hmem hcarried hp (hget.trans hnext) hnext
  | none =>
    have hvisible : (rebasedLayer newBase s r).baseVisible p = true :=
      baseVisible_iff.mpr fun d hd hne _ => clear_above hs hgathered htree hfile hcarried hnext hd hne
    rw [view_of_none hp (hget.trans hnext), if_pos hvisible, fileOf_baseObj, placedObj, hnext]
    rfl

/-- Without any condition, a path shows what was placed or no file. -/
theorem view_cases (hs' : (rebasedLayer newBase s r).Sound) :
    fileOf ((rebasedLayer newBase s r).view c p) = placedObj c newBase r p ∨
      fileOf ((rebasedLayer newBase s r).view c p) = none := by
  cases he : (rebasedLayer newBase s r).entries.get p with
  | some e =>
    by_cases hhidden : e = .whiteout ∨ e = .dir false
    · right
      rw [view_of_entry hp he]
      rcases hhidden with rfl | rfl <;> rfl
    · rw [not_or] at hhidden
      left
      rcases addParentDirs_cases he with hget | ⟨heq, -⟩
      · rcases entry_cases hs hgathered c hhidden.1 hget with ⟨heq, -⟩ | ⟨hnext, -⟩
        · exact absurd heq hhidden.2
        · exact view_of_next hs hmem hcarried hp he hnext
      · exact absurd heq hhidden.2
  | none =>
    rw [view_of_none hp he]
    split_ifs with hvisible
    · left
      have hnext : r.next.get p = none := by
        by_contra hne
        obtain ⟨e, hnext⟩ := ne_none_iff_exists'.mp hne
        by_cases hw : e = .whiteout
        · subst hw
          rcases hidden_or_entry hs hgathered hnext hs'.root with hsome | ⟨d, hle, hne,
            hdnil, hclear⟩
          · exact hsome he
          · exact hclear (baseVisible_iff.mp hvisible d hle hne hdnil)
        · by_cases hown : OwnDir newBase s p
          · rw [show (rebasedLayer newBase s r).entries.get p = _ from get_ownDir hs hgathered hown] at he
            cases he
          · refine get_layer_ne_none ((hgathered.kept p e hw).mpr ?_) he
            rw [get_keepDirs hs, if_neg hown, hnext]
      rw [fileOf_baseObj, placedObj, hnext]
      rfl
    · exact .inr rfl

end Layer

/-! ## The move -/

section Move

variable (hs : s.Sound) {conflicts : List Path} (h : s.rebase c newBase merge = .ok (s', conflicts))
include hs h

/-- **Consistent outcomes are shown.** -/
theorem rebase_outcome (htree : Consistent c s newBase merge) (p : Path) :
    fileOf (s'.view c p) = outcome c s newBase merge p := by
  have hs' := sound_rebase hs h
  obtain ⟨found, r, hmem, hcarried, hgathered, heq⟩ := rebase_ok hs h
  change s' = rebasedLayer newBase s r at heq
  subst heq
  have hplaced q : placedObj c newBase r q = outcome c s newBase merge q :=
    hcarried.placed_eq hs hmem (htree.replaced q)
  have hfits : Placeable c s newBase r := by
    constructor
    · intro p q
      rw [hplaced, hplaced]
      exact htree.files p q
    · intro p d
      rw [hplaced]
      exact htree.dirs p d
  rw [← hplaced]
  by_cases hp : p = []
  · subst hp
    obtain ⟨e, he, hkind⟩ := newBase.root
    have hlookup : newBase.lookup [] = some e := he
    rw [placedObj, (hcarried.layerOk hs fun e he => (hmem e).mp he).root]
    simp [fileOf, baseFile, fileEntry, hlookup, hkind, Option.filter]
  by_cases hnone : placedObj c newBase r p = none
  · rcases view_cases hs hmem hcarried hgathered hp hs' with heq | heq
    · exact heq
    · rw [hnone]
      exact heq
  · exact view_of_placed hs hmem hcarried hgathered hp hfits hnone

/-- **Outcomes that are shown are consistent.** -/
theorem consistent_of_shown (hshown : ∀ p, fileOf (s'.view c p) = outcome c s newBase merge p) :
    Consistent c s newBase merge := by
  have hs' := sound_rebase hs h
  obtain ⟨found, r, hmem, hcarried, hgathered, heq⟩ := rebase_ok hs h
  change s' = rebasedLayer newBase s r at heq
  subst heq
  -- what has to show a file shows no directory, and has nothing below it
  have hfile : ∀ {p}, outcome c s newBase merge p ≠ none →
      (rebasedLayer newBase s r).view c p ≠ some .dir := by
    intro p hp hdir
    rw [← hshown, hdir] at hp
    exact hp rfl
  have hleaf : ∀ {p q}, outcome c s newBase merge p ≠ none →
      (rebasedLayer newBase s r).view c q ≠ none →
      p <+: q → p = q := by
    intro p q hp hq hle
    by_contra hne
    rw [ne_eq, ← kindAt_eq_none] at hq
    exact hfile hp ((kindAt_eq_dir c).mp (hs'.kindAt_above hq hle hne))
  refine ⟨fun p q hp hq hle => hleaf hp (fun hnone => ?_) hle, fun p d hp hown hle => ?_,
    fun p change hd hold hnew => ?_⟩
  · rw [← hshown, hnone] at hq
    exact hq rfl
  · have hdir : (rebasedLayer newBase s r).view c d = some .dir := by
      by_cases hroot : d = []
      · rw [hroot, view_root]
      · have hget : (rebasedLayer newBase s r).entries.get d = some (.dir false) :=
          get_ownDir hs hgathered hown
        rw [view_of_entry hroot hget]
        rfl
    have hpd := hleaf hp (by rw [hdir]; simp) hle
    subst hpd
    exact hfile hp hdir
  · -- the user's file has to show, so it is what the merge's answer placed
    have houtcome := hshown p
    rw [outcome, hd] at houtcome
    simp only [leftAlone_of_dirs hold hnew, if_true] at houtcome
    have hsome : fileOf (s.view c p) ≠ none := by
      obtain ⟨a, ha, hkind⟩ := Option.any_eq_true _ _ |>.mp hold
      have hchange : change ≠ .delete := by
        rintro rfl
        rw [difference, fileEntry, ha] at hd
        simp only [of_decide_eq_true hkind, Option.filter] at hd
        split at hd <;> simp_all
      have hedit : IsEdit c s ⟨p, change⟩ := hd
      obtain ⟨hdelete, -⟩ | ⟨-, n, hn, hnkind⟩ := hedit.shown hs
      · exact absurd hdelete hchange
      · rw [view_eq_lookup, show s.lookup p = some n from hn]
        simpa [fileOf, Option.filter] using hnkind
    have hroot : p ≠ [] := by
      rintro rfl
      exact hsome rfl
    rw [← hcarried.placed_replaced hs hmem hd hnew, ← houtcome]
    rcases view_cases hs hmem hcarried hgathered hroot hs' with heq | heq
    · exact heq.symm
    · exact absurd (houtcome.symm.trans heq) hsome

end Move

/-- **Rebase is a three-way move**, exactly when the outcomes are consistent. -/
theorem rebase_threeWay (c : Content) (base : Manifest) (actions : List Action) (newBase : Manifest)
    (merge : MergeFunc) (s' : FS) (conflicts : List Path)
    (h : (reached c base actions).rebase c newBase merge = .ok (s', conflicts)) :
    ThreeWay c (reached c base actions) newBase merge s' ↔
      Consistent c (reached c base actions) newBase merge := by
  have hs := sound_reached c base actions
  have hs' := sound_rebase hs h
  refine ⟨fun hmove => consistent_of_shown hs h hmove.shows, fun htree => ⟨hs'.shows c,
    rebase_outcome hs h htree, fun p b hb hkind hchanged hsame => ?_⟩⟩
  have hfile : baseFile c newBase p = some (baseObj c b) := by
    simp [baseFile, fileEntry, hb, hkind]
  have houtcome : outcome c (reached c base actions) newBase merge p = some (baseObj c b) := by
    rw [outcome]
    cases hd : difference c (reached c base actions) p with
    | none => exact hfile
    | some change => simp [hchanged, hsame change hd, hfile]
  have hshown : s'.view c p = some (baseObj c b) := by
    have hview := (rebase_outcome hs h htree p).trans houtcome
    exact (filter_eq_some_iff.mp hview).1
  refine ⟨hshown, fun hdelete => ?_⟩
  have hedit : IsEdit c s' ⟨p, .delete⟩ := hdelete
  have hnone := hedit.fileOf_view hs' rfl
  rw [hshown] at hnone
  simp [fileOf, Option.filter, hkind] at hnone

theorem mem_of_outcome (hs : s.Sound) (hp : outcome c s newBase merge p ≠ none) :
    p ∈ s.candidates ++ newBase.entries.rows.map Prod.fst := by
  rw [List.mem_append]
  cases hd : difference c s p with
  | some change => exact .inl (hs.mem_candidates_of_difference (by rw [hd]; simp))
  | none =>
    rw [outcome, hd] at hp
    obtain ⟨b, hb, -⟩ := exists_of_baseFile hp
    exact .inr (List.mem_map.mpr ⟨(p, b), (newBase.entries.mem_rows_iff p b).mpr hb, rfl⟩)

theorem consistent_of_checked (hs : s.Sound)
    (hfiles : ∀ p ∈ s.candidates ++ newBase.entries.rows.map Prod.fst,
      ∀ q ∈ s.candidates ++ newBase.entries.rows.map Prod.fst,
        (outcome c s newBase merge p).isSome → (outcome c s newBase merge q).isSome →
          p <+: q → p = q)
    (hdirs : ∀ p ∈ s.candidates ++ newBase.entries.rows.map Prod.fst, ∀ row ∈ s.entries.rows,
      (outcome c s newBase merge p).isSome → row.2 = .dir false ∨ row.2 = .dir true →
        isDirEntry (newBase.lookup row.1) = false → ¬ p <+: row.1)
    (hreplaced : ∀ p ∈ s.candidates, isDirEntry (newBase.lookup p) = true →
      difference c s p = none) :
    Consistent c s newBase merge := by
  constructor
  case files =>
    intro p q hp hq
    exact hfiles p (mem_of_outcome hs hp) q (mem_of_outcome hs hq) (isSome_iff_ne_none.mpr hp)
      (isSome_iff_ne_none.mpr hq)
  case dirs =>
    rintro p d hp ⟨⟨isOpaque, he⟩, hdir⟩
    refine hdirs p (mem_of_outcome hs hp) (d, .dir isOpaque) ((s.entries.mem_rows_iff _ _).mpr he)
      (isSome_iff_ne_none.mpr hp) ?_ hdir
    cases isOpaque
    · exact .inl rfl
    · exact .inr rfl
  case replaced =>
    intro p change hd _ hnew
    have hnone := hreplaced p (hs.mem_candidates_of_difference (by rw [hd]; simp)) hnew
    rw [hd] at hnone
    cases hnone

/-- A base with one file at the root. -/
def baseWith (commitID name hash : String) : Manifest :=
  (newManifest commitID [([name], ⟨.file, 0, 0, hash, ""⟩)]).toOption.getD (.empty commitID)

/-- A merge that takes the new base. -/
def takeTheirs : MergeFunc := fun _ => .ok ⟨false, true, false, [], 0, false⟩

/-- The user adds a file in a new directory and changes the base's file. -/
def bothChanged : List Action :=
  [.op (.mkdir ["d"]), .op (.writeFile ["d", "f"] [1] 0), .op (.writeFile ["a"] [2] 0)]

theorem rebase_threeWay_bothChanged :
    ∃ s' conflicts,
      (reached emptyContent (baseWith "c1" "a" "h1") bothChanged).rebase emptyContent
        (baseWith "c2" "a" "h2") takeTheirs = .ok (s', conflicts) ∧
      ThreeWay emptyContent (reached emptyContent (baseWith "c1" "a" "h1") bothChanged)
        (baseWith "c2" "a" "h2") takeTheirs s' := by
  have hok : ((reached emptyContent (baseWith "c1" "a" "h1") bothChanged).rebase emptyContent
      (baseWith "c2" "a" "h2") takeTheirs).isOk = true := by decide +kernel
  cases hrebase : (reached emptyContent (baseWith "c1" "a" "h1") bothChanged).rebase emptyContent
      (baseWith "c2" "a" "h2") takeTheirs with
  | error =>
    rw [hrebase] at hok
    cases hok
  | ok x =>
    obtain ⟨s', conflicts⟩ := x
    refine ⟨s', conflicts, rfl, (rebase_threeWay _ _ _ _ _ s' conflicts hrebase).mpr ?_⟩
    exact consistent_of_checked (sound_reached _ _ _) (by decide +kernel) (by decide +kernel)
      (by decide +kernel)

/-- **A directory of the user hides a file the new base adds**: the merge, which would fail, is not
asked, and the file is then a delete. -/
theorem rebase_hides_newFile :
    ((reached emptyContent (.empty "c1") [.op (.mkdir ["a"])]).rebase emptyContent (baseWith "c2" "a" "h")
      (fun _ => .error "asked")).toOption.map
        (fun x => (x.1.kindAt ["a"], difference emptyContent x.1 ["a"])) =
      some (some .dir, some .delete) ∧
    difference emptyContent (reached emptyContent (.empty "c1") [.op (.mkdir ["a"])]) ["a"] = none ∧
    (baseFile emptyContent (baseWith "c2" "a" "h") ["a"]).isSome = true := by
  decide +kernel

end GitSlice.LazyFS.FS
