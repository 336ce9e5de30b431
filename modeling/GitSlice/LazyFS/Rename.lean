import GitSlice.LazyFS.Effects

/-! # Moving a subtree
`Rename` collects what is shown at and under the old path as local entries, deletes the local
entries at both paths and writes the collected ones at the new path. The view then shows there what
it showed at the old path, and nothing at the old path, whichever layers the subtree was made of. -/

namespace GitSlice.LazyFS.FS

open List Table Option

variable {c : Content} {s : FS} {p q old new : Path} {n src : ViewNode}

/-! ## Writing in place -/

variable {name mode : Nat}

theorem fits_edit (hs : s.Sound) (he : s.entries.get p = some (.file mode name))
    (write : Bytes → Bytes) :
    s.Fits (At p) { edit := some (name, write) } := by
  have hkind : ∀ d, (s.perform { edit := some (name, write) }).kindAt d = s.kindAt d := fun d =>
    kindAt_congr (R := fun _ => False) (fun _ _ h => h.elim) rfl (fun _ _ => rfl) not_false
  have hin : s.FileIn (At p) name := ⟨p, mode, prefix_refl p, he⟩
  constructor
  case below => exact below_at p
  case frame => exact fun _ _ => rfl
  case root => exact hs.root
  case placed =>
    intro q e _ hget hne d hd hdq
    rw [hkind]
    exact hs.above q e hget hne d hd hdq
  case own => exact fun q mode name hq hget => ⟨by simp, .inr ⟨q, mode, hq, hget⟩⟩
  case apart => exact fun q r mode mode' name _ _ => hs.apart q r mode mode' name
  case garbage => simp
  case edit =>
    intro name' write' hplan
    cases hplan
    exact .inr hin
  case normal => exact fun q e _ => hs.normal q e

/-- **A write in place** changes the content of the file alone. -/
theorem view_edit (hs : s.Sound) (he : s.entries.get p = some (.file mode name))
    (write : Bytes → Bytes) :
    (s.perform { edit := some (name, write) }).view c =
      Function.update (s.view c) p (some (.file mode (write ((s.files.get name).getD [])))) := by
  have hp : p ≠ [] := by
    rintro rfl
    rw [hs.root] at he
    cases he
  have hfiles : ∀ k, (s.perform { edit := some (name, write) }).files.get k =
      (s.files.get k).map fun data => if k = name then write data else data := fun k =>
    get_update _ _ _
  funext q
  rw [Function.update_apply]
  split_ifs with hqp
  · obtain ⟨data, hdata⟩ := ne_none_iff_exists'.mp (hs.present p mode name he)
    have he' : (s.perform { edit := some (name, write) }).entries.get p = some (.file mode name) :=
      he
    rw [hqp, view_of_entry hp he', entryObj, hfiles, hdata]
    simp
  · refine view_congr (R := fun _ => False) (fun _ _ h => h.elim) rfl (fun _ _ => rfl) not_false ?_
    intro mode' name' hget
    have hne : name' ≠ name := by
      rintro rfl
      exact hqp (hs.apart q p mode' mode name' hget he)
    rw [hfiles]
    simp [hne]

/-! ## What is collected -/

theorem length_le_depth (hq : s.lookup q ≠ none) : q.length ≤ s.depth := by
  by_cases hnil : q = []
  · rw [hnil]
    exact Nat.zero_le _
  rw [lookup] at hq
  cases he : s.entries.get q with
  | some e =>
    refine le_max_of_le_right ?_
    exact List.le_max_of_le' 0 (mem_map_of_mem ((s.entries.mem_rows_iff q e).mpr he)) le_rfl
  | none =>
    rw [he] at hq
    split_ifs at hq
    · refine (Manifest.length_le_depth fun hnone => hq ?_).trans (le_max_left _ _)
      rw [hnone]
      rfl
    · exact absurd rfl hq

theorem entryObj_movedEntry (files : Table Nat Bytes) {n : ViewNode}
    (hfiles : ∀ name, n.kind = .file → n.file = some name → files.get name = s.files.get name) :
    entryObj c files (movedEntry n) = some (s.nodeObj c n) := by
  rw [movedEntry, nodeObj]
  cases hkind : n.kind with
  | file =>
    cases hfile : n.file with
    | none => rfl
    | some name => simp only [entryObj, hfiles name hkind hfile]
  | dir => rfl
  | symlink => rfl

section

variable (hn : s.lookup p = some n)
include hn

theorem mem_collect (hs : s.Sound) {levels : Nat} {rel rel' : Path} {e : LocalEntry}
    (hlevels : ∀ r, s.lookup (p ++ r) ≠ none → r.length ≤ levels) :
    (rel', e) ∈ s.collect levels rel p n ↔
      ∃ r n', rel' = rel ++ r ∧ s.lookup (p ++ r) = some n' ∧ e = movedEntry n' := by
  induction levels generalizing rel p n with
  | zero =>
    rw [collect, mem_singleton, Prod.mk.injEq]
    constructor
    · rintro ⟨rfl, rfl⟩
      exact ⟨[], n, by simp, by simpa using hn, rfl⟩
    · rintro ⟨r, n', rfl, hr, rfl⟩
      have hnil := length_eq_zero_iff.mp (Nat.le_zero.mp (hlevels r (by rw [hr]; simp)))
      subst hnil
      rw [append_nil] at hr ⊢
      rw [hn] at hr
      cases hr
      exact ⟨rfl, rfl⟩
  | succ levels ih =>
    -- the levels left are enough under every name
    have hchild : ∀ {name : String} {child : ViewNode}, s.lookup (p ++ [name]) = some child →
        ((rel', e) ∈ s.collect levels (rel ++ [name]) (p ++ [name]) child ↔
          ∃ r n', rel' = rel ++ name :: r ∧ s.lookup (p ++ name :: r) = some n' ∧
            e = movedEntry n') := by
      intro name child hlookup
      rw [ih hlookup fun r hr => ?_]
      · simp only [append_assoc, singleton_append]
      · have hle := hlevels (name :: r) (by simpa using hr)
        simpa using hle
    rw [collect, mem_cons, Prod.mk.injEq]
    constructor
    · rintro (⟨rfl, rfl⟩ | hmem)
      · exact ⟨[], n, by simp, by simpa using hn, rfl⟩
      · split_ifs at hmem with hdir
        · obtain ⟨name, -, hmem⟩ := mem_flatMap.mp hmem
          split at hmem
          · cases hmem
          · rename_i child hlookup
            obtain ⟨r, n', hrel, hr, he⟩ := (hchild hlookup).mp hmem
            exact ⟨name :: r, n', hrel, hr, he⟩
        · cases hmem
    · rintro ⟨r, n', hrel, hr, he⟩
      cases r with
      | nil =>
        rw [append_nil] at hr hrel
        rw [hn] at hr
        cases hr
        exact .inl ⟨hrel, he⟩
      | cons name r =>
        refine .inr ?_
        have hshown : s.kindAt (p ++ name :: r) ≠ none := by
          rw [kindAt, hr]
          simp
        have hdir : n.kind = .dir := by
          have hkind := hs.kindAt_above hshown (prefix_append p _) (by simp)
          rw [kindAt, hn] at hkind
          simpa using hkind
        obtain ⟨child, hlookup⟩ : ∃ child, s.lookup (p ++ [name]) = some child := by
          by_cases hnil : r = []
          · exact ⟨n', by rw [hnil] at hr; exact hr⟩
          · have hkind := hs.kindAt_above hshown ⟨r, by simp⟩
              (show p ++ [name] ≠ p ++ name :: r by simpa using hnil)
            obtain ⟨child, hchild', -⟩ := map_eq_some_iff.mp hkind
            exact ⟨child, hchild'⟩
        rw [if_pos hdir]
        refine mem_flatMap.mpr ⟨name, (mem_childNames hn hdir).mpr (by rw [hlookup]; simp), ?_⟩
        rw [hlookup]
        exact (hchild hlookup).mpr ⟨r, n', hrel, hr, he⟩

/-- Where a node comes from: it is the root, or of the base, or of the layer. -/
theorem lookup_cases :
    (p = [] ∧ n = { kind := .dir, mode := modeDir }) ∨
      (∃ e, s.base.lookup p = some e ∧ n = baseNode e) ∨
      ∃ e, s.entries.get p = some e ∧ s.localNode e = some n := by
  by_cases hp : p = []
  · subst hp
    cases hn
    exact .inl ⟨rfl, rfl⟩
  rw [lookup, if_neg hp] at hn
  split at hn
  · rename_i e he
    exact .inr (.inr ⟨e, he, hn⟩)
  · split_ifs at hn
    obtain ⟨e, hbase, rfl⟩ := map_eq_some_iff.mp hn
    exact .inr (.inl ⟨e, hbase, rfl⟩)

theorem entry_of_file (hp : p ≠ []) (hfile : n.file = some name) :
    s.entries.get p = some (.file n.mode name) := by
  rcases lookup_cases hn with ⟨hroot, -⟩ | ⟨e, -, rfl⟩ | ⟨e, he, hlocal⟩
  · exact absurd hroot hp
  · cases hfile
  · cases e with
    | file =>
      cases hlocal
      cases hfile
      exact he
    | whiteout => cases hlocal
    | _ =>
      cases hlocal
      cases hfile

theorem Sound.normal_mode (hs : s.Sound) (hkind : n.kind = .file) :
    normalizeFileMode n.mode = n.mode := by
  rcases lookup_cases hn with ⟨-, rfl⟩ | ⟨e, hbase, rfl⟩ | ⟨e, he, hlocal⟩
  · cases hkind
  · have hmode := s.base.modes p e hbase
    have hk : e.kind = .file := hkind
    rw [hk] at hmode
    exact hmode
  · have hnormal := hs.normal p e he
    cases e with
    | file | ref =>
      cases hlocal
      exact hnormal
    | whiteout => cases hlocal
    | _ =>
      cases hlocal
      cases hkind

theorem normalEntry_movedEntry (hs : s.Sound) : NormalEntry (movedEntry n) := by
  rw [movedEntry]
  cases hkind : n.kind with
  | file =>
    have hmode := hs.normal_mode hn hkind
    cases n.file with
    | none | some => exact hmode
  | dir | symlink => trivial

end

theorem movedEntry_eq_file (h : movedEntry n = .file mode name) :
    n.kind = .file ∧ n.mode = mode ∧ n.file = some name := by
  rw [movedEntry] at h
  split at h
  · rename_i hkind
    split at h <;> cases h
    rename_i hfile
    exact ⟨hkind, rfl, hfile⟩
  · cases h
  · cases h

/-! ## The plan -/

/-- The paths of a rename: neither is at or under the other one. -/
structure Beside (old new : Path) : Prop where
  oldProper : old ≠ []
  newProper : new ≠ []
  down : ¬ old <+: new
  up : ¬ new <+: old

theorem Beside.not_both (h : Beside old new) (hold : At old q) (hnew : At new q) : False := by
  rcases prefix_or_prefix_of_prefix hold hnew with hle | hle
  · exact h.down hle
  · exact h.up hle

/-- The region of a rename. -/
def AtEither (old new q : Path) : Prop := At old q ∨ At new q

theorem below_atEither (old new : Path) : Below (AtEither old new) := by
  rintro p q (hp | hp) hle
  · exact .inl (hp.trans hle)
  · exact .inr (hp.trans hle)

section

variable (hsrc : s.lookup old = some src)
include hsrc

theorem get_renamed (hs : s.Sound) (h : Beside old new) :
    (∀ r, (s.entries.writeAll (s.renamePlan old new src).set).get (new ++ r) =
      (s.lookup (old ++ r)).map movedEntry) ∧
    (∀ q, At old q → (s.entries.writeAll (s.renamePlan old new src).set).get q =
      if q = old ∧ (s.base.lookup old).isSome ∧ s.baseVisible old then some .whiteout else none) ∧
    (∀ q, ¬ At old q → ¬ At new q →
      (s.entries.writeAll (s.renamePlan old new src).set).get q = s.entries.get q) := by
  have hcollect : ∀ {r : Path} {e : LocalEntry}, (r, e) ∈ s.collect s.depth [] old src ↔
      ∃ n', s.lookup (old ++ r) = some n' ∧ e = movedEntry n' := by
    intro r e
    rw [mem_collect hsrc hs fun r hr => ?_]
    · simp
    · have hle := length_le_depth hr
      rw [length_append] at hle
      omega
  let moved := (s.collect s.depth [] old src).map fun x => (new ++ x.1, some x.2)
  have hmoved : ∀ q, ¬ At new q → q ∉ moved.map Prod.fst := by
    intro q hq hmem
    obtain ⟨x, hx, rfl⟩ := mem_map.mp hmem
    obtain ⟨y, -, rfl⟩ := mem_map.mp hx
    exact hq (prefix_append new y.1)
  have hremoval : ∀ q, ¬ At old q → q ∉ (s.removal old).map Prod.fst := by
    intro q hq hmem
    obtain ⟨x, hx, rfl⟩ := mem_map.mp hmem
    rcases mem_append.mp hx with hx | hx
    · obtain ⟨r, hr, rfl⟩ := mem_map.mp hx
      exact hq (mem_localEntriesUnder.mp hr).1
    · split_ifs at hx
      · rw [mem_singleton.mp hx] at hq
        exact hq (prefix_refl old)
      · cases hx
  have hset : (s.renamePlan old new src).set =
      (s.localEntriesUnder new).map (fun q => (q, none)) ++ s.removal old ++ moved := rfl
  rw [hset, writeAll_append, writeAll_append]
  refine ⟨fun r => ?_, fun q hq => ?_, fun q hq hq' => ?_⟩
  · cases hlookup : s.lookup (old ++ r) with
    | some n' =>
      -- the moved entry is written last, whatever else asks for the path
      refine get_writeAll_of_forall _ ?_ fun o' ho' => ?_
      · refine mem_map.mpr ⟨(new ++ r, some (movedEntry n')), ?_, rfl⟩
        exact mem_map.mpr ⟨(r, movedEntry n'), hcollect.mpr ⟨n', hlookup, rfl⟩, rfl⟩
      · obtain ⟨⟨r', e⟩, hmem, heq⟩ := mem_map.mp ho'
        rw [Prod.mk.injEq] at heq
        obtain ⟨hr, rfl⟩ := heq
        have hrr : r' = r := append_cancel_left hr
        subst hrr
        obtain ⟨n'', hlookup', rfl⟩ := hcollect.mp hmem
        rw [hlookup] at hlookup'
        cases hlookup'
        rfl
    | none =>
      have hnot : new ++ r ∉ moved.map Prod.fst := by
        intro hmem
        obtain ⟨x, hx, heq⟩ := mem_map.mp hmem
        obtain ⟨⟨r', e⟩, hy, rfl⟩ := mem_map.mp hx
        have hrr : r' = r := append_cancel_left heq
        subst hrr
        obtain ⟨n', hlookup', -⟩ := hcollect.mp hy
        rw [hlookup] at hlookup'
        cases hlookup'
      have hnew : At new (new ++ r) := prefix_append new r
      rw [get_writeAll_of_notMem _ hnot,
        get_writeAll_of_notMem _ (hremoval _ fun hold => h.not_both hold hnew), get_clear,
        if_pos <| isPrefixOf_iff_prefix.mpr hnew]
      rfl
  · have hnew : ¬ At new q := h.not_both hq
    have hsame : (s.entries.writeAll ((s.localEntriesUnder new).map fun r => (r, none))).get q =
        s.entries.get q := by
      rw [get_clear, if_neg fun hle => hnew <| isPrefixOf_iff_prefix.mp hle]
    rw [get_writeAll_of_notMem _ (hmoved q hnew), get_writeAll_congr_at hsame, get_removal,
      if_pos <| isPrefixOf_iff_prefix.mpr hq]
  · rw [get_writeAll_of_notMem _ (hmoved q hq'), get_writeAll_of_notMem _ (hremoval q hq),
      get_clear, if_neg fun hle => hq' <| isPrefixOf_iff_prefix.mp hle]

theorem not_mem_garbage (hs : s.Sound) {r : Path} {n' : ViewNode}
    (hlookup : s.lookup (old ++ r) = some n') (hkind : n'.kind = .file)
    (hfile : n'.file = some name) :
    name ∉ (s.renamePlan old new src).garbage := by
  have hmem : (r, movedEntry n') ∈ s.collect s.depth [] old src := by
    rw [mem_collect hsrc hs fun r hr => ?_]
    · exact ⟨r, n', by simp, hlookup, rfl⟩
    · have hle := length_le_depth hr
      rw [length_append] at hle
      omega
  have hkept : name ∈ keptFiles (s.collect s.depth [] old src) := by
    refine mem_filterMap.mpr ⟨_, hmem, ?_⟩
    simp only [movedEntry, hkind, hfile]
  intro hgarbage
  have hnot := (mem_filter.mp hgarbage).2
  simp [hkept] at hnot

theorem fits_rename (hs : s.Sound) (h : Beside old new)
    (hparents : ∀ d, d <+: new → d ≠ new → s.kindAt d = some .dir) :
    s.Fits (AtEither old new) (s.renamePlan old new src) := by
  obtain ⟨hnew, hold, hframe⟩ := get_renamed hsrc hs h
  have hframe' : ∀ q, ¬ AtEither old new q →
      (s.entries.writeAll (s.renamePlan old new src).set).get q = s.entries.get q := fun q hq =>
    hframe q (fun h' => hq (.inl h')) fun h' => hq (.inr h')
  -- an entry of the region that shows something was moved
  have hmoved : ∀ {q : Path} {e : LocalEntry}, AtEither old new q →
      (s.entries.writeAll (s.renamePlan old new src).set).get q = some e → e ≠ .whiteout →
      ∃ r n', q = new ++ r ∧ s.lookup (old ++ r) = some n' ∧ e = movedEntry n' := by
    rintro q e (hq | ⟨r, rfl⟩) he hne
    · rw [hold q hq] at he
      split_ifs at he
      exact absurd (Option.some.inj he).symm hne
    · rw [hnew r] at he
      obtain ⟨n', hlookup, rfl⟩ := map_eq_some_iff.mp he
      exact ⟨r, n', rfl, hlookup, rfl⟩
  have hmovedFile : ∀ {q : Path} {mode name : Nat}, AtEither old new q →
      (s.entries.writeAll (s.renamePlan old new src).set).get q = some (.file mode name) →
      ∃ r n', q = new ++ r ∧ s.lookup (old ++ r) = some n' ∧ n'.kind = .file ∧ n'.file = some name ∧
        s.entries.get (old ++ r) = some (.file n'.mode name) := by
    intro q mode name hq he
    obtain ⟨r, n', rfl, hlookup, heq⟩ := hmoved hq he (by simp)
    obtain ⟨hkind, -, hfile⟩ := movedEntry_eq_file heq.symm
    exact ⟨r, n', rfl, hlookup, hkind, hfile, entry_of_file hlookup (by simp [h.oldProper]) hfile⟩
  constructor
  case below => exact below_atEither old new
  case frame => exact hframe'
  case root =>
    rw [hframe' []]
    · exact hs.root
    · rintro (hle | hle)
      · exact hle.ne_nil h.oldProper rfl
      · exact hle.ne_nil h.newProper rfl
  case placed =>
    intro q e hq he hne d hd hdq
    obtain ⟨r, n', rfl, hlookup, -⟩ := hmoved hq he hne
    by_cases hnd : new <+: d
    · -- a directory that was moved along
      obtain ⟨r', rfl⟩ := hnd
      have hle : old ++ r' <+: old ++ r :=
        (prefix_append_right_inj old).mpr ((prefix_append_right_inj new).mp hd)
      have hne' : old ++ r' ≠ old ++ r := by
        intro heq
        exact hdq (by rw [append_cancel_left heq])
      have hkind := hs.kindAt_above (by rw [kindAt, hlookup]; simp) hle hne'
      obtain ⟨n'', hlookup', hdir⟩ := map_eq_some_iff.mp hkind
      have hget : (s.perform (s.renamePlan old new src)).entries.get (new ++ r') =
          some (.dir true) := by
        rw [entries_perform, hnew, hlookup']
        simp [movedEntry, hdir]
      rw [kindAt_eq_dir ⟨fun _ => [], fun _ => ""⟩, view_of_entry (by simp [h.newProper]) hget]
      rfl
    · have hdnew : d <+: new := by
        rcases prefix_or_prefix_of_prefix hd (prefix_append new r) with hle | hle
        · exact hle
        · exact absurd hle hnd
      have hdne : d ≠ new := fun heq => hnd (heq ▸ prefix_refl d)
      have hout : ¬ AtEither old new d := by
        rintro (hle | hle)
        · exact h.down (hle.trans hdnew)
        · exact hnd hle
      rw [kindAt_perform (below_atEither old new) hframe' hout]
      exact hparents d hdnew hdne
  case own =>
    intro q mode name hq he
    obtain ⟨r, n', -, hlookup, hkind, hfile, hentry⟩ := hmovedFile hq he
    exact ⟨not_mem_garbage hsrc hs hlookup hkind hfile,
      .inr ⟨old ++ r, n'.mode, .inl (prefix_append old r), hentry⟩⟩
  case apart =>
    intro q q' mode mode' name hq hq' he he'
    obtain ⟨r, n₁, rfl, -, -, -, hentry⟩ := hmovedFile hq he
    obtain ⟨r', n₂, rfl, -, -, -, hentry'⟩ := hmovedFile hq' he'
    have heq := hs.apart _ _ _ _ name hentry hentry'
    rw [append_cancel_left heq]
  case garbage =>
    intro name hname
    rcases mem_append.mp (mem_filter.mp hname).1 with hmem | hmem
    · obtain ⟨q, mode, hq, hget⟩ := mem_localFilesUnder.mp hmem
      exact ⟨q, mode, .inr hq, hget⟩
    · obtain ⟨q, mode, hq, hget⟩ := mem_localFilesUnder.mp hmem
      exact ⟨q, mode, .inl hq, hget⟩
  case edit =>
    intro name write hplan
    cases hplan
  case normal =>
    intro q e hq he
    by_cases hne : e = .whiteout
    · rw [hne]
      trivial
    · obtain ⟨r, n', -, hlookup, rfl⟩ := hmoved hq he hne
      exact normalEntry_movedEntry hlookup hs

/-- **Renaming** moves what was shown at and under the old path. -/
theorem view_rename (hs : s.Sound) (h : Beside old new)
    (hparents : ∀ d, d <+: new → d ≠ new → s.kindAt d = some .dir) (q : Path) :
    (s.perform (s.renamePlan old new src)).view c q =
      if new.isPrefixOf q then s.view c (old ++ q.drop new.length)
      else if old.isPrefixOf q then none
      else s.view c q := by
  obtain ⟨hnew, hold, -⟩ := get_renamed hsrc hs h
  have hfits := fits_rename hsrc hs h hparents
  split_ifs with hqnew hqold
  · obtain ⟨r, rfl⟩ := isPrefixOf_iff_prefix.mp hqnew
    have hnil : new ++ r ≠ [] := by simp [h.newProper]
    have hget : (s.perform (s.renamePlan old new src)).entries.get (new ++ r) =
        (s.lookup (old ++ r)).map movedEntry := by rw [entries_perform, hnew]
    rw [drop_left, view_eq_lookup (p := old ++ r)]
    cases hlookup : s.lookup (old ++ r) with
    | some n' =>
      rw [hlookup] at hget
      rw [view_of_entry hnil hget]
      refine entryObj_movedEntry _ fun name hkind hfile => ?_
      have hentry := entry_of_file hlookup (by simp [h.oldProper]) hfile
      have hname : name ≠ s.nextName := fun heq =>
        hs.present _ _ name hentry (hs.fresh name heq.ge)
      rw [files_perform, if_neg (not_mem_garbage hsrc hs hlookup hkind hfile), created,
        if_neg hname]
      exact congrFun map_id _
    | none =>
      -- what was moved hides the base at the new path
      rw [hlookup] at hget
      rw [view_of_none hnil hget]
      split_ifs with hvisible
      · have hr : r ≠ [] := by
          rintro rfl
          rw [append_nil, hsrc] at hlookup
          cases hlookup
        have hclear := baseVisible_iff.mp hvisible new (prefix_append new r) (by simp [hr]) h.newProper
        have hself := hnew []
        rw [append_nil, append_nil, hsrc] at hself
        rw [Clear, entries_perform, hself] at hclear
        cases hkind : src.kind <;> cases hfile : src.file <;> simp [movedEntry, hkind, hfile] at hclear
      · rfl
  · have hqold' : At old q := isPrefixOf_iff_prefix.mp hqold
    refine view_removed h.oldProper (base_perform s _) (fun r hr => ?_) ?_ hqold'
    · rw [entries_perform, hold r hr]
    · refine baseVisible_eq fun d hd hne => ?_
      have hout : ¬ AtEither old new d := by
        rintro (hle | hle)
        · exact not_at hd hne hle
        · exact h.up (hle.trans hd)
      rw [entries_perform, hfits.frame d hout]
  · refine hfits.view hs ?_
    rintro (hle | hle)
    · exact hqold <| isPrefixOf_iff_prefix.mpr hle
    · exact hqnew <| isPrefixOf_iff_prefix.mpr hle

end

end GitSlice.LazyFS.FS
