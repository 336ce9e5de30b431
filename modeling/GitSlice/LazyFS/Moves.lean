import GitSlice.LazyFS.Difference

/-! # Workspaces that move to another base
`Rebase` decides edit by edit (`Carried` says what its first loop has done after some of them) and
`Switch` takes the entries of a changeset; both make sound layers. A workspace that does operations,
restores, rebases and switches therefore stays sound, and `Edits` is the difference from its base in
every state. -/

namespace GitSlice.LazyFS

open List Table

namespace FS

variable {c : Content} {s : FS} {newBase : Manifest} {merge : MergeFunc} {p : Path}

/-! ## The entry of an edit -/

/-- The edit is one of the workspace's. -/
def IsEdit (c : Content) (s : FS) (edit : Edit) : Prop :=
  difference c s edit.path = some edit.change

variable {edit : Edit}

theorem Sound.name_lt (hs : s.Sound) {mode name : Nat}
    (h : s.entries.get p = some (.file mode name)) :
    name < s.nextName := by
  by_contra hle
  exact hs.present _ _ _ h (hs.fresh name (not_lt.mp hle))

section

variable (hs : s.Sound) (h : IsEdit c s edit)
include hs h

/-- An upsert is made where a file or symlink is shown, and a delete where none is. -/
theorem IsEdit.shown :
    (edit.change = .delete ∧ (s.lookup edit.path).all fun n => n.kind = .dir) ∨
      (edit.change ≠ .delete ∧ ∃ n, s.lookup edit.path = some n ∧ n.kind ≠ .dir) := by
  rw [IsEdit, difference, hs.shownFile_eq] at h
  cases hl : s.lookup edit.path with
  | none =>
    rw [hl] at h
    cases hb : fileEntry (s.base.lookup edit.path) with
    | none =>
      rw [hb] at h
      cases h
    | some b =>
      rw [hb] at h
      exact .inl ⟨(Option.some.inj h).symm, rfl⟩
  | some n =>
    rw [hl] at h
    by_cases hk : n.kind = .dir
    · refine .inl ⟨?_, by simp [hk]⟩
      cases hb : fileEntry (s.base.lookup edit.path) <;> simp [hb, hk, Option.filter] at h
      exact h.symm
    · refine .inr ⟨fun hdelete => ?_, n, rfl, hk⟩
      rw [hdelete] at h
      cases hb : fileEntry (s.base.lookup edit.path) <;> simp [hb, hk, Option.filter] at h

theorem IsEdit.path_ne_nil : edit.path ≠ [] := by
  intro hnil
  rw [IsEdit, difference, hs.shownFile_eq, hnil] at h
  obtain ⟨e, he, hkind⟩ := s.base.root
  have hlookup : s.base.lookup [] = some e := he
  simp [lookup, fileEntry, hlookup, hkind, Option.filter] at h

theorem IsEdit.entry_cases :
    (edit.change = .delete ∧ s.entryForEdit edit = .whiteout) ∨
      (edit.change ≠ .delete ∧ ∃ n, s.lookup edit.path = some n ∧
        ((n.kind = .symlink ∧ s.entryForEdit edit = .symlink n.target) ∨
          (n.kind = .file ∧ s.entryForEdit edit = match n.file with
            | some name => .file n.mode name
            | none => .ref n.mode n.hash n.size))) := by
  rcases h.shown hs with ⟨hdelete, -⟩ | ⟨hchange, n, hn, hk⟩
  · exact .inl ⟨hdelete, by rw [FS.entryForEdit, hdelete]⟩
  · refine .inr ⟨hchange, n, hn, ?_⟩
    rw [FS.entryForEdit]
    cases hc : edit.change with
    | delete => exact absurd hc hchange
    | upsert hash mode file =>
      simp only [hn]
      cases hkind : n.kind with
      | dir => exact absurd hkind hk
      | symlink => exact .inl ⟨rfl, rfl⟩
      | file => exact .inr ⟨rfl, rfl⟩

/-- What `entryForEditLocked` returns is a whiteout, or shows what is shown. -/
theorem IsEdit.entryForEdit :
    (edit.change = .delete ∧ s.entryForEdit edit = .whiteout) ∨
      (edit.change ≠ .delete ∧ entryObj c s.files (s.entryForEdit edit) = s.view c edit.path) := by
  refine (h.entry_cases hs).imp_right fun ⟨hchange, n, hn, hentry⟩ => ⟨hchange, ?_⟩
  rw [view_eq_lookup, hn, Option.map_some, nodeObj]
  rcases hentry with ⟨hk, he⟩ | ⟨hk, he⟩
  · simp [he, hk, entryObj]
  · cases hfile : n.file <;> simp [he, hk, hfile, entryObj]

theorem IsEdit.normal :
    NormalEntry (s.entryForEdit edit) ∧ ∀ isOpaque, s.entryForEdit edit ≠ .dir isOpaque := by
  rcases h.entry_cases hs with ⟨-, he⟩ | ⟨-, n, hn, ⟨-, he⟩ | ⟨hk, he⟩⟩
  · rw [he]
    exact ⟨trivial, nofun⟩
  · rw [he]
    exact ⟨trivial, nofun⟩
  · rw [he]
    cases n.file <;> exact ⟨hs.normal_mode hn hk, nofun⟩

theorem IsEdit.file {mode name : Nat}
    (he : s.entryForEdit edit = .file mode name) :
    s.entries.get edit.path = some (.file mode name) := by
  rcases h.entry_cases hs with ⟨-, he'⟩ | ⟨-, n, hn, ⟨-, he'⟩ | ⟨-, he'⟩⟩
  · cases he.symm.trans he'
  · cases he.symm.trans he'
  · split at he' <;> cases he.symm.trans he'
    rename_i hfile
    exact entry_of_file hn (h.path_ne_nil hs) hfile

end

/-! ## The first loop of Rebase -/

/-- The entry that is stored: a whiteout only where it hides a file. -/
def placedEntry (newBase : Manifest) (p : Path) (e : LocalEntry) : Option LocalEntry :=
  if e = .whiteout ∧ (fileEntry (newBase.lookup p)).isNone then none else some e

theorem placedEntry_eq_some {e e' : LocalEntry} (h : placedEntry newBase p e = some e') :
    e = e' := by
  rw [placedEntry] at h
  split_ifs at h
  exact Option.some.inj h

/-- What the first loop of `Rebase` has made of an edit. -/
def Placed (newBase : Manifest) (s : FS) (files : Table Nat Bytes) (edit : Edit)
    (o : Option LocalEntry) : Resolution → Prop
  | .ours => o = placedEntry newBase edit.path (s.entryForEdit edit)
  | .theirs => o = none
  | .delete => o = placedEntry newBase edit.path .whiteout
  | .content data mode =>
    ∃ name, o = some (.file (normalizeFileMode mode) name) ∧ files.get name = some data

theorem next_place (r : Rebasing) (newBase : Manifest) (p : Path) (o : Option LocalEntry) :
    (r.place newBase p o).next =
      match o.bind (placedEntry newBase p) with
      | none => r.next
      | some e => r.next.set p e := by
  cases o with
  | none => rfl
  | some e =>
    cases e with
    | whiteout =>
      rw [Rebasing.place]
      cases hb : newBase.lookup p with
      | none => simp [placedEntry, hb, fileEntry]
      | some b =>
        by_cases hk : b.kind = .dir <;> simp [placedEntry, hb, hk, fileEntry]
    | _ => rfl

@[simp] theorem place_frame (r : Rebasing) (newBase : Manifest) (p : Path) (o : Option LocalEntry) :
    (r.place newBase p o).files = r.files ∧ (r.place newBase p o).nextName = r.nextName := by
  unfold Rebasing.place
  split
  · exact ⟨rfl, rfl⟩
  · split
    · exact ⟨rfl, rfl⟩
    · split_ifs <;> exact ⟨rfl, rfl⟩
  · exact ⟨rfl, rfl⟩
  · exact ⟨rfl, rfl⟩

variable {o : Option LocalEntry}

theorem used_place (r : Rebasing) (newBase : Manifest) (p : Path) {name : Nat}
    (h : name ∈ r.used ∨ ∃ mode, o = some (.file mode name)) :
    name ∈ (r.place newBase p o).used := by
  unfold Rebasing.place
  split
  · simpa using h
  · split
    · simpa using h
    · split_ifs <;> simpa using h
  · rcases h with h | ⟨mode, h⟩
    · exact mem_cons_of_mem _ h
    · cases h
      exact mem_cons_self
  · rename_i e hfile
    rcases h with h | ⟨mode, h⟩
    · exact h
    · cases h
      exact absurd rfl (hfile mode name)

/-- What the first loop of `Rebase` has done after the edits `done`. -/
structure Carried (s : FS) (newBase : Manifest) (merge : MergeFunc) (done : List Edit) (r : Rebasing) :
    Prop where
  placed : ∀ e ∈ done, ∃ resolution conflict, s.resolveEdit newBase merge e =
    .ok (resolution, conflict) ∧
    Placed newBase s r.files e (r.next.get e.path) resolution
  others : ∀ p, (∀ e ∈ done, e.path ≠ p) → r.next.get p = none
  later : s.nextName ≤ r.nextName
  kept : ∀ name, name < s.nextName → r.files.get name = s.files.get name
  fresh : ∀ name, r.nextName ≤ name → r.files.get name = none
  present : ∀ p mode name, r.next.get p = some (.file mode name) →
    name ∈ r.used ∧ r.files.get name ≠ none ∧
      (name < s.nextName → s.entries.get p = some (.file mode name))
  apart : ∀ p q mode mode' name, r.next.get p = some (.file mode name) →
    r.next.get q = some (.file mode' name) → p = q

variable {done : List Edit} {r : Rebasing} {resolution : Resolution}

theorem Carried.place {conflict : Bool}
    (hs : s.Sound) (h : Carried s newBase merge done r) (hnew : ∀ e ∈ done, e.path ≠ edit.path)
    (hresolve : s.resolveEdit newBase merge edit = .ok (resolution, conflict))
    (hplaced : Placed newBase s r.files edit (o.bind (placedEntry newBase edit.path)) resolution)
    (hfile : ∀ mode name, o = some (.file mode name) →
      s.entries.get edit.path = some (.file mode name) ∨
        (s.nextName ≤ name ∧ r.files.get name ≠ none ∧
          ∀ q mode', r.next.get q ≠ some (.file mode' name))) :
    Carried s newBase merge (done ++ [edit]) (r.place newBase edit.path o) := by
  have hget : ∀ q, (r.place newBase edit.path o).next.get q =
      if q = edit.path then o.bind (placedEntry newBase edit.path) else r.next.get q := by
    intro q
    rw [next_place]
    cases ho : o.bind (placedEntry newBase edit.path) with
    | none =>
      split_ifs with hq
      · rw [hq]
        exact h.others _ hnew
      · rfl
    | some e => exact get_set _ _ _ _
  have hsource : ∀ {mode name : Nat},
      o.bind (placedEntry newBase edit.path) = some (.file mode name) →
        o = some (.file mode name) := by
    intro mode name hbind
    obtain ⟨e, he, hentry⟩ := Option.bind_eq_some_iff.mp hbind
    exact he.trans (congrArg some (placedEntry_eq_some hentry))
  constructor
  case placed =>
    intro e he
    rw [hget, (place_frame r newBase edit.path o).1]
    rcases mem_append.mp he with he | he
    · rw [if_neg (hnew e he)]
      exact h.placed e he
    · rw [mem_singleton.mp he, if_pos rfl]
      exact ⟨resolution, conflict, hresolve, hplaced⟩
  case others =>
    intro q hq
    rw [hget, if_neg fun heq => hq edit (by simp) heq.symm]
    exact h.others q fun e he => hq e (mem_append_left _ he)
  case later => simpa using h.later
  case kept => simpa using h.kept
  case fresh => simpa using h.fresh
  case present =>
    intro q mode name hq
    rw [hget] at hq
    rw [(place_frame r newBase edit.path o).1]
    split_ifs at hq with heq
    · subst heq
      have ho := hsource hq
      refine ⟨used_place _ _ _ (.inr ⟨mode, ho⟩), ?_⟩
      rcases hfile mode name ho with he | ⟨hle, hne, -⟩
      · refine ⟨?_, fun _ => he⟩
        rw [h.kept name (hs.name_lt he)]
        exact hs.present _ _ _ he
      · exact ⟨hne, fun hlt => absurd hlt (not_lt.mpr hle)⟩
    · obtain ⟨hused, hne, hentry⟩ := h.present q mode name hq
      exact ⟨used_place _ _ _ (.inl hused), hne, hentry⟩
  case apart =>
    -- a file that is placed now is no other path's
    have hother : ∀ {q : Path} {mode mode' name : Nat}, o = some (.file mode name) →
        r.next.get q = some (.file mode' name) → q = edit.path := by
      intro q mode mode' name ho hq
      rcases hfile mode name ho with he | ⟨-, -, hnone⟩
      · obtain ⟨-, -, hentry⟩ := h.present q mode' name hq
        exact hs.apart q edit.path mode' mode name (hentry (hs.name_lt he)) he
      · exact absurd hq (hnone q mode')
    intro p q mode mode' name hp hq
    rw [hget] at hp hq
    split_ifs at hp hq with hpe hqe hqe
    · rw [hpe, hqe]
    · rw [hpe, hother (hsource hp) hq]
    · rw [hqe, hother (hsource hq) hp]
    · exact h.apart p q mode mode' name hp hq

section

variable (h : Carried s newBase merge done r)
include h

theorem Carried.exists_edit (hp : r.next.get p ≠ none) :
    ∃ e ∈ done, e.path = p := by
  by_contra hnot
  refine hp (h.others p fun e he heq => hnot ⟨e, he, heq⟩)

theorem Carried.withConflicts (conflicts : List Path) :
    Carried s newBase merge done { r with conflicts := conflicts } :=
  ⟨h.placed, h.others, h.later, h.kept, h.fresh, h.present, h.apart⟩

theorem Carried.write (data : Bytes) : Carried s newBase merge done
      { r with files := r.files.set r.nextName data, nextName := r.nextName + 1 } := by
  have hother : ∀ {name : Nat}, r.files.get name ≠ none → (r.files.set r.nextName data).get name =
      r.files.get name := by
    intro name hne
    refine get_set_of_ne _ _ ?_
    rintro rfl
    exact hne (h.fresh _ le_rfl)
  refine ⟨fun e he => ?_, h.others, h.later.trans (Nat.le_succ _), fun name hname => ?_,
    fun name hname => ?_, fun p mode name hp => ?_, h.apart⟩
  · obtain ⟨resolution, conflict, hresolve, hplaced⟩ := h.placed e he
    refine ⟨resolution, conflict, hresolve, ?_⟩
    cases resolution with
    | content =>
      obtain ⟨name, hentry, hdata⟩ := hplaced
      refine ⟨name, hentry, ?_⟩
      rw [hother (by rw [hdata]; simp)]
      exact hdata
    | _ => exact hplaced
  · rw [get_set_of_ne _ _ (Nat.ne_of_lt (hname.trans_le h.later))]
    exact h.kept name hname
  · rw [get_set_of_ne _ _ (Nat.ne_of_gt hname)]
    exact h.fresh name (Nat.le_of_succ_le hname)
  · obtain ⟨hused, hne, hentry⟩ := h.present p mode name hp
    exact ⟨hused, by rwa [hother hne], hentry⟩

end

variable {r' : Rebasing}

/-- **One edit** of the first loop of `Rebase`. -/
theorem Carried.step (hs : s.Sound) (hedit : IsEdit c s edit) (h : Carried s newBase merge done r)
    (hnew : ∀ e ∈ done, e.path ≠ edit.path) (hstep : s.rebaseEdit newBase merge r edit = .ok r') :
    Carried s newBase merge (done ++ [edit]) r' := by
  obtain ⟨⟨resolution, conflict⟩, hresolve, hrest⟩ := Except.bind_eq_ok.mp hstep
  have hcarried := h.withConflicts (r.conflicts ++ if conflict then [edit.path] else [])
  cases resolution with
  | ours =>
    cases hrest
    refine hcarried.place hs hnew hresolve rfl fun mode name ho => .inl ?_
    exact hedit.file hs (Option.some.inj ho)
  | theirs | delete =>
    cases hrest
    exact hcarried.place hs hnew hresolve rfl (by simp)
  | content data mode =>
    cases hrest
    refine (hcarried.write data).place hs hnew hresolve ⟨r.nextName, ?_, by simp⟩ fun mode' name ho => .inr ?_
    · simp [placedEntry]
    · cases ho
      refine ⟨h.later, by simp, fun q mode'' hq => ?_⟩
      exact (h.present q mode'' _ hq).2.1 (h.fresh _ le_rfl)

variable {found : List Edit}

/-- **The first loop of `Rebase`**. -/
theorem Carried.loop (hs : s.Sound) (hedits : ∀ e ∈ found, IsEdit c s e)
    (hnodup : ((done ++ found).map Edit.path).Nodup) (h : Carried s newBase merge done r)
    (hloop : found.foldlM (s.rebaseEdit newBase merge) r = .ok r') :
    Carried s newBase merge (done ++ found) r' := by
  induction found generalizing done r with
  | nil =>
    cases hloop
    simpa using h
  | cons edit found ih =>
    obtain ⟨r₁, hstep, hrest⟩ := Except.foldlM_cons_ok.mp hloop
    have hnew : ∀ e ∈ done, e.path ≠ edit.path := by
      rw [map_append, nodup_append] at hnodup
      exact fun e he => hnodup.2.2 _ (mem_map_of_mem he) _ (by simp)
    have hnext := h.step hs (hedits edit mem_cons_self) hnew hstep
    have hrun := ih (fun e he => hedits e (mem_cons_of_mem _ he))
      (by simpa using hnodup) hnext hrest
    simpa using hrun

theorem carried_nil (hs : s.Sound) :
    Carried s newBase merge [] ⟨.empty, [], s.files, s.nextName, []⟩ :=
  ⟨by simp, by simp, le_rfl, fun _ _ => rfl, hs.fresh, by simp, by simp⟩

variable {e : LocalEntry} {files : Table Nat Bytes}

/-- The entry placed for an edit records a normal mode and is no directory. -/
theorem Placed.normal (hs : s.Sound) (hedit : IsEdit c s edit)
    (h : Placed newBase s files edit (some e) resolution) :
    NormalEntry e ∧ ∀ isOpaque, e ≠ .dir isOpaque := by
  cases resolution with
  | ours =>
    rw [← placedEntry_eq_some h.symm]
    exact hedit.normal hs
  | theirs => cases h
  | delete =>
    rw [← placedEntry_eq_some h.symm]
    exact ⟨trivial, by simp⟩
  | content data mode =>
    obtain ⟨name, he, -⟩ := h
    cases he
    exact ⟨normalizeFileMode_idem mode, by simp⟩

theorem Carried.normal (hs : s.Sound) (hedits : ∀ e ∈ found, IsEdit c s e)
    (h : Carried s newBase merge found r)
    (he : r.next.get p = some e) : p ≠ [] ∧ NormalEntry e ∧ ∀ isOpaque, e ≠ .dir isOpaque := by
  obtain ⟨edit, hmem, rfl⟩ := h.exists_edit (by rw [he]; simp)
  obtain ⟨resolution, conflict, -, hplaced⟩ := h.placed edit hmem
  rw [he] at hplaced
  exact ⟨(hedits edit hmem).path_ne_nil hs, hplaced.normal hs (hedits edit hmem)⟩

theorem Carried.layerOk (hs : s.Sound) (hedits : ∀ e ∈ found, IsEdit c s e)
    (h : Carried s newBase merge found r) : LayerOk r.next r.used r.files r.nextName := by
  constructor
  case root => exact Option.eq_none_iff_forall_ne_some.mpr fun e he => (h.normal hs hedits he).1 rfl
  case plain => exact fun p hp => (h.normal hs hedits hp).2.2 true rfl
  case present => exact fun p mode name hp => ⟨(h.present p mode name hp).1,
    (h.present p mode name hp).2.1⟩
  case apart => exact h.apart
  case fresh => exact h.fresh
  case normal => exact fun p e he => (h.normal hs hedits he).2.1

/-! ## The user's directories -/

/-- A directory of the layer that the new base does not have. -/
def OwnDir (newBase : Manifest) (s : FS) (p : Path) : Prop :=
  (∃ isOpaque, s.entries.get p = some (.dir isOpaque)) ∧ isDirEntry (newBase.lookup p) = false

theorem lookup_dir {isOpaque : Bool} (hs : s.Sound) (he : s.entries.get p = some (.dir isOpaque)) :
    ∃ n, s.lookup p = some n ∧ n.kind = .dir := by
  have hp : p ≠ [] := by
    rintro rfl
    rw [hs.root] at he
    cases he
  exact ⟨_, by rw [lookup, if_neg hp, he]; rfl, rfl⟩

open Classical in
/-- **The second loop of `Rebase`**. -/
theorem get_keepDirs (hs : s.Sound) (next : Table Path LocalEntry) (p : Path) :
    (s.keepDirs newBase next).get p = if OwnDir newBase s p then some (.dir false) else next.get p := by
  let kept : Path × LocalEntry → Bool := fun row =>
    (∃ isOpaque, row.2 = .dir isOpaque) ∧ (s.lookup row.1).isSome ∧
      ¬ isDirEntry (newBase.lookup row.1)
  have hloop : s.keepDirs newBase next =
      next.setIf kept Prod.fst (fun _ => .dir false) s.entries.rows := by
    refine congrArg (fun f => s.entries.rows.foldl f next) ?_
    funext t row
    obtain ⟨q, e⟩ := row
    cases e <;> simp [kept]
  have hkept : ∀ row ∈ s.entries.rows, kept row = true ↔ OwnDir newBase s row.1 := by
    rintro ⟨q, e⟩ hmem
    have he : s.entries.get q = some e := (s.entries.mem_rows_iff q e).mp hmem
    cases e with
    | dir =>
      obtain ⟨n, hn, -⟩ := lookup_dir hs he
      simp [kept, OwnDir, he, hn]
    | _ => simp [kept, OwnDir, he]
  rw [hloop]
  split_ifs with hown
  · obtain ⟨isOpaque, he⟩ := hown.1
    have hmem : (p, LocalEntry.dir isOpaque) ∈ s.entries.rows := (s.entries.mem_rows_iff _ _).mpr he
    exact get_setIf_of_exists _ _ _ _ ⟨_, hmem, (hkept _ hmem).mpr hown, rfl⟩ fun _ _ _ _ => rfl
  · refine get_setIf_of_forall _ _ _ _ fun row hmem hrow heq => hown ?_
    rw [← heq]
    exact (hkept row hmem).mp hrow

/-! ## Deleted directories -/

/-- What the third loop of `Rebase` makes of a layer: whiteouts of directories in place of the
whiteouts in them. -/
structure Gathered (newBase : Manifest) (next next' : Table Path LocalEntry) : Prop where
  kept : ∀ q e, e ≠ .whiteout → (next'.get q = some e ↔ next.get q = some e)
  hidden : ∀ q, next.get q = some .whiteout → ∃ d, d <+: q ∧ next'.get d = some .whiteout ∧
    (d = q ∨ ∀ r e, next.get r = some e → isUnder r d = true → e = .whiteout)
  whole : ∀ q, next'.get q = some .whiteout → next.get q = some .whiteout ∨
    (q ≠ [] ∧ isDirEntry (newBase.lookup q) = true ∧
      ∀ r b, newBase.lookup r = some b → b.kind ≠ .dir → isUnder r q = true →
        next.get r = some .whiteout)

theorem Gathered.refl (newBase : Manifest) (next : Table Path LocalEntry) :
    Gathered newBase next next :=
  ⟨fun _ _ _ => Iff.rfl, fun q hq => ⟨q, prefix_refl q, hq, .inl rfl⟩, fun _ hq => .inl hq⟩

variable {next : Table Path LocalEntry}

theorem wholeDeleted_iff :
    wholeDeleted newBase next p = true ↔
      (∀ r b, newBase.lookup r = some b → b.kind ≠ .dir → isUnder r p = true →
        next.get r = some .whiteout) ∧
      ∀ r e, next.get r = some e → isUnder r p = true → e = .whiteout := by
  rw [wholeDeleted, Bool.and_eq_true, all_eq_true, all_eq_true]
  refine and_congr ⟨fun h r b hb hk hr => ?_, fun h x hx => ?_⟩ ⟨fun h r e he hr => ?_,
    fun h x hx => ?_⟩
  · obtain ⟨hle, hne⟩ := isUnder_iff.mp hr
    simpa using h (r, b) (Manifest.mem_filesUnder.mpr ⟨hb, hk, hle, hne.symm⟩)
  · obtain ⟨hb, hk, hle, hne⟩ := Manifest.mem_filesUnder.mp hx
    simpa using h x.1 x.2 hb hk (isUnder_iff.mpr ⟨hle, hne.symm⟩)
  · have hrow := h (r, e) ((next.mem_rows_iff r e).mpr he)
    simpa [hr] using hrow
  · cases hr : isUnder x.1 p with
    | false => simp
    | true => simpa [hr] using h x.1 x.2 ((next.mem_rows_iff x.1 x.2).mp hx) hr

variable {next' : Table Path LocalEntry}

theorem Gathered.step {d : Path} (h : Gathered newBase next next') (hd : d ≠ [])
    (hdir : isDirEntry (newBase.lookup d) = true) (hfree : ∀ e, next.get d = some e → e = .whiteout)
    (hwhole : wholeDeleted newBase next' d = true) :
    Gathered newBase next ((next'.keep fun q => !isUnder q d).set d .whiteout) := by
  obtain ⟨hfiles, hentries⟩ := wholeDeleted_iff.mp hwhole
  have hget : ∀ q, ((next'.keep fun q => !isUnder q d).set d .whiteout).get q =
      if q = d then some .whiteout else if isUnder q d = true then none else next'.get q := by
    intro q
    rw [get_set, get_keep]
    cases isUnder q d <;> simp
  constructor
  case kept =>
    intro q e hw
    rw [hget]
    split_ifs with hq hunder
    · subst hq
      refine ⟨fun he => absurd (Option.some.inj he).symm hw, fun he => absurd (hfree e he) hw⟩
    · refine ⟨fun he => absurd he (by simp), fun he => absurd (hentries q e ?_ hunder) hw⟩
      exact (h.kept q e hw).mpr he
    · exact h.kept q e hw
  case hidden =>
    intro q hq
    obtain ⟨x, hle, hx, hunder⟩ := h.hidden q hq
    by_cases hxd : isUnder x d = true
    · -- the whiteout that hid `q` is gathered into that of `d`
      refine ⟨d, (isUnder_iff.mp hxd).1.trans hle, by rw [hget, if_pos rfl],
        .inr fun r e he hr => ?_⟩
      by_contra hw
      exact hw (hentries r e ((h.kept r e hw).mpr he) hr)
    · refine ⟨x, hle, ?_, hunder⟩
      rw [hget]
      split_ifs
      · rfl
      · exact hx
  case whole =>
    intro q hq
    rw [hget] at hq
    split_ifs at hq with heq hunder
    · refine .inr ⟨heq ▸ hd, heq ▸ hdir, fun r b hb hk hr => ?_⟩
      rcases h.whole r (hfiles r b hb hk (heq ▸ hr)) with hnext | ⟨-, hrdir, -⟩
      · exact hnext
      · rw [isDirEntry, hb] at hrdir
        simp [hk] at hrdir
    · exact h.whole q hq

/-- **The third loop of `Rebase`**. -/
theorem gathered_keepDeleted (hfree : ∀ d, isDirEntry (s.base.lookup d) = true → s.lookup d = none →
      ∀ e, next.get d = some e →
        e = .whiteout) : Gathered newBase next (s.keepDeleted newBase next) := by
  rw [keepDeleted]
  refine List.foldlRecOn (motive := Gathered newBase next) _ _
    (Gathered.refl newBase next) fun t h row _ => ?_
  split_ifs with hrow
  · obtain ⟨hbase, hnone, hdir, hwhole⟩ := hrow
    have hlookup : s.lookup row.1 = none := Option.isNone_iff_eq_none.mp hnone
    have hne : row.1 ≠ [] := by
      intro hnil
      rw [hnil] at hlookup
      cases hlookup
    exact h.step hne hdir (hfree _ hbase hlookup) hwhole
  · exact h

/-! ## Rebase -/

theorem LayerOk.mono {used : List Nat}
    {nextName : Nat} (h : LayerOk next used files nextName) (hnext : ∀ p e, next'.get p = some e →
      next.get p = some e ∨ (p ≠ [] ∧ (e = .dir false ∨ e = .whiteout))) :
    LayerOk next' used files nextName := by
  have hfile : ∀ {p : Path} {mode name : Nat}, next'.get p = some (.file mode name) →
      next.get p = some (.file mode name) := by
    intro p mode name hp
    rcases hnext p _ hp with hold | ⟨-, heq | heq⟩
    · exact hold
    · cases heq
    · cases heq
  constructor
  case root =>
    refine Option.eq_none_iff_forall_ne_some.mpr fun e he => ?_
    rcases hnext [] e he with hold | ⟨hne, -⟩
    · rw [h.root] at hold
      cases hold
    · exact hne rfl
  case plain =>
    intro p hp
    rcases hnext p _ hp with hold | ⟨-, heq | heq⟩
    · exact h.plain p hold
    · cases heq
    · cases heq
  case present => exact fun p mode name hp => h.present p mode name (hfile hp)
  case apart => exact fun p q mode mode' name hp hq => h.apart p q mode mode' name (hfile hp) (hfile hq)
  case fresh => exact h.fresh
  case normal =>
    intro p e he
    rcases hnext p e he with hold | ⟨-, rfl | rfl⟩
    · exact h.normal p e hold
    · trivial
    · trivial

variable {conflicts : List Path} {s' : FS}

theorem rebase_ok (hs : s.Sound) (h : s.rebase c newBase merge = .ok (s', conflicts)) :
    ∃ found r, (∀ e, e ∈ found ↔ IsEdit c s e) ∧ Carried s newBase merge found r ∧
      Gathered newBase (s.keepDirs newBase r.next) (s.keepDeleted newBase (s.keepDirs newBase r.next)) ∧
      s' = s.replaceLayer newBase
        (addParentDirs newBase (s.keepDeleted newBase (s.keepDirs newBase r.next))) r.used r.files
        r.nextName := by
  obtain ⟨found, hfound, hrest⟩ := Except.bind_eq_ok.mp h
  obtain ⟨r, hloop, hresult⟩ := Except.bind_eq_ok.mp hrest
  obtain ⟨l, hl, hnodup, -, hmem⟩ := hs.edits_eq c
  have hsame : l = found := Except.ok.inj (hl.symm.trans hfound)
  subst hsame
  have hcarried : Carried s newBase merge l r := by
    simpa using Carried.loop hs (fun e he => (hmem e).mp he) (by simpa using hnodup) (carried_nil hs) hloop
  refine ⟨l, r, hmem, hcarried, gathered_keepDeleted fun d hdir hnone e he => ?_, ?_⟩
  · -- a base directory that is gone is no edit and no directory of the user
    exfalso
    rw [get_keepDirs hs] at he
    split_ifs at he with hown
    · obtain ⟨isOpaque, hentry⟩ := hown.1
      obtain ⟨n, hn, -⟩ := lookup_dir hs hentry
      rw [hn] at hnone
      cases hnone
    · obtain ⟨edit, hedit, rfl⟩ := hcarried.exists_edit (by rw [he]; simp)
      have hdifference := (hmem edit).mp hedit
      have hfile : fileEntry (s.base.lookup edit.path) = none := by
        cases hb : s.base.lookup edit.path with
        | none => rfl
        | some b =>
          rw [isDirEntry, hb] at hdir
          simpa [fileEntry, Option.filter] using hdir
      rw [difference, hs.shownFile_eq, hnone, hfile] at hdifference
      cases hdifference
  · cases hresult
    rfl

theorem sound_rebase (hs : s.Sound) (h : s.rebase c newBase merge = .ok (s', conflicts)) :
    s'.Sound := by
  obtain ⟨found, r, hmem, hcarried, hgathered, rfl⟩ := rebase_ok hs h
  refine sound_replaceLayer s newBase ?_
  have hdirs : LayerOk (s.keepDirs newBase r.next) r.used r.files r.nextName := by
    refine (hcarried.layerOk hs fun e he => (hmem e).mp he).mono fun p e he => ?_
    rw [get_keepDirs hs] at he
    split_ifs at he with hown
    · refine .inr ⟨?_, .inl (Option.some.inj he).symm⟩
      rintro rfl
      obtain ⟨isOpaque, hentry⟩ := hown.1
      rw [hs.root] at hentry
      cases hentry
    · exact .inl he
  refine hdirs.mono fun p e he => ?_
  by_cases hw : e = .whiteout
  · subst hw
    exact (hgathered.whole p he).imp_right fun hwhole => ⟨hwhole.1, .inr rfl⟩
  · exact .inl ((hgathered.kept p e hw).mp he)

/-! ## Switch -/

theorem switchEntry_cases {base o : Option BaseEntry} (h : switchEntry base o = some e) :
    NormalEntry e ∧ (∀ isOpaque, e ≠ .dir isOpaque) ∧ ∀ mode name, e ≠ .file mode name := by
  unfold switchEntry at h
  split at h
  · split_ifs at h
    cases h
    exact ⟨trivial, by simp, by simp⟩
  · split at h
    · split_ifs at h
      cases h
      exact ⟨trivial, by simp, by simp⟩
    · split_ifs at h
      cases h
      exact ⟨normalizeFileMode_idem _, by simp, by simp⟩
    · cases h

variable {diff : Table Path (Option BaseEntry)} {keep : List Path} {expect : List Edit}

theorem switchKeeps_eq_some (h : s.switchKeeps newBase diff p = some e) :
    s.entries.get p = some e ∧ (∀ isOpaque, e ≠ .dir isOpaque) ∧ diff.get p = none ∧
      newBase.lookup p = none := by
  unfold switchKeeps at h
  split at h
  · cases h
  · cases h
  · cases h
  · rename_i e' hdir _ he
    split_ifs at h with hlisted
    cases h
    rw [not_or, Option.not_isSome_iff_eq_none, Option.not_isSome_iff_eq_none] at hlisted
    exact ⟨he, hdir, hlisted⟩

/-- An entry of the layer that `Switch` makes, before its directories are completed. -/
def Switches (s : FS) (newBase : Manifest) (diff : Table Path (Option BaseEntry)) (keep : List Path)
    (p : Path) (e : LocalEntry) : Prop :=
  (p ≠ [] ∧ ∃ o, diff.get p = some o ∧ switchEntry (newBase.lookup p) o = some e) ∨
    (p ∈ keep ∧ s.switchKeeps newBase diff p = some e)

theorem Switches.unique {e' : LocalEntry} (h : s.Switches newBase diff keep p e)
    (h' : s.Switches newBase diff keep p e') : e = e' := by
  rcases h with ⟨-, o, hget, he⟩ | ⟨-, he⟩ <;> rcases h' with ⟨-, o', hget', he'⟩ | ⟨-, he'⟩
  · cases hget.symm.trans hget'
    exact Option.some.inj (he.symm.trans he')
  · cases hget.symm.trans (switchKeeps_eq_some he').2.2.1
  · cases hget'.symm.trans (switchKeeps_eq_some he).2.2.1
  · exact Option.some.inj (he.symm.trans he')

theorem switch_ok (h : s.switch c newBase diff keep expect = .ok s') :
    ∃ next used, s' = s.replaceLayer newBase (addParentDirs newBase next) used s.files s.nextName ∧
      (∀ p e, next.get p = some e ↔ s.Switches newBase diff keep p e) ∧
      ∀ p mode name, s.Switches newBase diff keep p (.file mode name) → name ∈ used := by
  obtain ⟨current, -, hrest⟩ := Except.bind_eq_ok.mp h
  split_ifs at hrest
  cases hrest
  let diffRows := diff.rows.filterMap fun row =>
    if row.1 = [] then none else (switchEntry (newBase.lookup row.1) row.2).map fun e => (row.1, e)
  let keepRows := keep.filterMap fun p => (s.switchKeeps newBase diff p).map fun e => (p, e)
  have hdiff : switchDiff newBase diff = .ofRows diffRows := by
    rw [Table.ofRows, foldl_filterMap, switchDiff]
    congr 1
    funext next row
    split_ifs
    · rfl
    · cases switchEntry (newBase.lookup row.1) row.2 <;> rfl
  have hnext : keepRows.foldl (fun next x => next.set x.1 x.2) (switchDiff newBase diff) =
      .ofRows (diffRows ++ keepRows) := by
    rw [hdiff, Table.ofRows, Table.ofRows, foldl_append]
  have hkeep : ∀ {p e}, (p, e) ∈ keepRows ↔ p ∈ keep ∧ s.switchKeeps newBase diff p = some e := by
    intro p e
    simp [keepRows]
  have hmem : ∀ {p e}, (p, e) ∈ diffRows ++ keepRows ↔ s.Switches newBase diff keep p e := by
    intro p e
    rw [mem_append, hkeep]
    refine or_congr_left ?_
    simp only [diffRows, mem_filterMap]
    constructor
    · rintro ⟨row, hrow, hentry⟩
      split_ifs at hentry with hnil
      obtain ⟨e', he', heq⟩ := Option.map_eq_some_iff.mp hentry
      cases heq
      exact ⟨hnil, row.2, (diff.mem_rows_iff _ _).mp hrow, he'⟩
    · rintro ⟨hnil, o, hget, hentry⟩
      exact ⟨(p, o), (diff.mem_rows_iff _ _).mpr hget, by rw [if_neg hnil, hentry]; rfl⟩
  refine ⟨_, _, rfl, fun p e => ?_, fun p mode name hp => ?_⟩
  · rw [hnext, get_ofRows fun e e' he he' => (hmem.mp he).unique (hmem.mp he')]
    exact hmem
  · refine mem_filterMap.mpr ⟨(p, .file mode name), hkeep.mpr (hp.resolve_left ?_), rfl⟩
    rintro ⟨-, o, -, hentry⟩
    exact (switchEntry_cases hentry).2.2 mode name rfl

theorem sound_switch (hs : s.Sound) (h : s.switch c newBase diff keep expect = .ok s') :
    s'.Sound := by
  obtain ⟨next, used, rfl, hnext, hused⟩ := switch_ok h
  have hkept : ∀ {p mode name}, s.Switches newBase diff keep p (.file mode name) →
      s.entries.get p = some (.file mode name) := by
    rintro p mode name (⟨-, o, -, hentry⟩ | ⟨-, hkeep⟩)
    · exact absurd rfl ((switchEntry_cases hentry).2.2 mode name)
    · exact (switchKeeps_eq_some hkeep).1
  have hentry : ∀ {p e}, next.get p = some e → p ≠ [] ∧ e ≠ .dir true ∧ NormalEntry e := by
    intro p e he
    rcases (hnext p e).mp he with ⟨hnil, o, -, hentry⟩ | ⟨-, hkeep⟩
    · obtain ⟨hnormal, hdir, -⟩ := switchEntry_cases hentry
      exact ⟨hnil, hdir true, hnormal⟩
    · obtain ⟨hget, hdir, -⟩ := switchKeeps_eq_some hkeep
      refine ⟨?_, hdir true, hs.normal p e hget⟩
      rintro rfl
      rw [hs.root] at hget
      cases hget
  refine sound_replaceLayer s newBase ?_
  constructor
  case root => exact Option.eq_none_iff_forall_ne_some.mpr fun e he => (hentry he).1 rfl
  case plain => exact fun p hp => (hentry hp).2.1 rfl
  case present =>
    intro p mode name hp
    have hplaced := (hnext p _).mp hp
    exact ⟨hused p mode name hplaced, hs.present p mode name (hkept hplaced)⟩
  case apart =>
    intro p q mode mode' name hp hq
    exact hs.apart p q mode mode' name (hkept ((hnext p _).mp hp)) (hkept ((hnext q _).mp hq))
  case fresh => exact hs.fresh
  case normal => exact fun p e he => (hentry he).2.2

end FS

/-! ## Runs -/

/-- What is done to a workspace. -/
inductive Action where
  /-- An operation on paths. -/
  | op (op : Op)
  | restore (p : Path)
  | rebase (newBase : Manifest) (merge : MergeFunc)
  | switch (newBase : Manifest) (diff : Table Path (Option BaseEntry)) (keep : List Path)
    (expect : List Edit)

namespace FS

variable {c : Content} {s : FS}

/-- An action; what fails leaves the workspace as it is. -/
def act (c : Content) (s : FS) : Action → FS
  | .op op => (s.exec c op).1
  | .restore p =>
    match s.restore p with
    | .error _ => s
    | .ok plan => s.perform plan
  | .rebase newBase merge =>
    match s.rebase c newBase merge with
    | .error _ => s
    | .ok (s', _) => s'
  | .switch newBase diff keep expect =>
    match s.switch c newBase diff keep expect with
    | .error _ => s
    | .ok s' => s'

/-- The workspace after some actions, from `Open` in an empty directory. -/
def reached (c : Content) (base : Manifest) (actions : List Action) : FS :=
  Machine.run (act c) (create base) actions

theorem sound_act (hs : s.Sound) (a : Action) : (s.act c a).Sound := by
  cases a with
  | op op => exact (exec_step hs op).1
  | restore p =>
    rw [act, restore]
    cases hiddenBy s.entries p.dropLast.reverse with
    | some dir => exact hs
    | none => exact (fits_restore hs).sound hs
  | rebase newBase merge =>
    rw [act]
    cases h : s.rebase c newBase merge with
    | error => exact hs
    | ok => exact sound_rebase hs h
  | switch newBase diff keep expect =>
    rw [act]
    cases h : s.switch c newBase diff keep expect with
    | error => exact hs
    | ok => exact sound_switch hs h

/-- **Every workspace is sound.** -/
theorem sound_reached (c : Content) (base : Manifest) (actions : List Action) :
    (reached c base actions).Sound :=
  Machine.run_invariant Sound (fun _ a hs => sound_act hs a) (sound_create base) actions

/-- **`Edits` is the difference.** Whatever was done to a workspace since it was opened, `Edits`
succeeds and returns, sorted by path and each path once, the differences between what the base has
and what `Stat` shows. -/
theorem edits_exact (c : Content) (base : Manifest) (actions : List Action) :
    ∃ l, (reached c base actions).edits c = .ok l ∧ (l.map Edit.path).Nodup ∧
      l.Pairwise (fun e e' => renderPath e.path ≤ renderPath e'.path) ∧
      ∀ p change, (⟨p, change⟩ : Edit) ∈ l ↔
        difference c (reached c base actions) p = some change := by
  obtain ⟨l, hl, hnodup, hsorted, hmem⟩ := (sound_reached c base actions).edits_eq c
  exact ⟨l, hl, hnodup, hsorted, fun p change => hmem ⟨p, change⟩⟩

end FS

end GitSlice.LazyFS
