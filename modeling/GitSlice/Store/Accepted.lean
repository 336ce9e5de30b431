import GitSlice.Store.PathHeads

/-! # The accepted tree
The admitted patchsets that wait lead from the ref's tree to the **accepted** tree. A patchset lands
on a tree (`Lands`) when its edits are flat there and its bases hold there, and the waiting ones
land one after the other (`LandChain`). This module says how `path_heads` follows the accepted tree:
rows made on the way (`HeadsAgree.accepted`), an admission (`HeadsAgree.edited`) and the refresh
after a landing (`HeadsAgree.refreshed`) all keep `HeadsAgree`. The last one needs that no waiting
patchset changes a path, or one below it, that the landing patchset deletes, moves or copies onto:
the refresh writes the landed tree's entry there over what was admitted since. -/

namespace GitSlice

open Node List GitSlice.Except

/-- The paths a patchset changes. -/
def Patchset.writes (ps : Patchset) : List Path := ps.fileEdits.flatMap Edit.writes

/-- The paths a patchset deletes, moves or copies onto. -/
def Patchset.settled (ps : Patchset) : List Path := ps.fileEdits.flatMap Edit.settled

/-- The entry of a tree at a base's path is the one the base records. -/
def BaseHolds (n : Node) (b : PathBase) : Prop :=
  if b.present then
    ∃ e ∈ n.getEntry (splitPath b.path), (PathHead.ofEntry e).fingerprint = b.fingerprint
  else n.getEntry (splitPath b.path) = none

instance (n : Node) (b : PathBase) : Decidable (BaseHolds n b) := by
  unfold BaseHolds
  infer_instance

/-- A patchset whose paths are tidy and whose bases are of its paths. -/
structure Patchset.Proper (ps : Patchset) : Prop where
  tidy : ∀ e ∈ ps.fileEdits, ∀ p ∈ e.writes ++ e.reads, Tidy p
  bases : ∀ b ∈ ps.pathBases, ∃ e ∈ ps.fileEdits, b.path ∈ e.writes ++ e.reads

variable {ps : Patchset} {p : Path}

theorem Patchset.Proper.tidy_writes (h : ps.Proper) (hp : p ∈ ps.writes) : Tidy p := by
  obtain ⟨e, he, hpe⟩ := mem_flatMap.mp hp
  exact h.tidy e he p (mem_append_left _ hpe)

variable {b : PathBase}

theorem Patchset.Proper.tidy_base (h : ps.Proper) (hb : b ∈ ps.pathBases) : Tidy b.path := by
  obtain ⟨e, he, hpe⟩ := h.bases b hb
  exact h.tidy e he _ hpe

theorem Edit.settled_subset_writes {φ : Type} (e : Edit φ) : ∀ p ∈ e.settled, p ∈ e.writes := by
  cases e <;> simp [Edit.settled, Edit.writes, Edit.path]

/-! ## Edits of a patchset and edits of the tree -/

variable {e : FileEdit} {te : TreeEdit}

theorem treeEdit_paths {blobs : Table BlobID Blob} (h : treeEdit blobs e = .ok te) :
    te.writes = e.writes ∧ te.reads = e.reads ∧ te.settled = e.settled := by
  cases e with
  | upsert =>
    obtain ⟨file, -, hte⟩ := bind_eq_ok.mp h
    cases hte
    exact ⟨rfl, rfl, rfl⟩
  | delete | mkdir | rename | copy => cases h; exact ⟨rfl, rfl, rfl⟩

section TreeEdits

variable {blobs : Table BlobID Blob} {edits : List FileEdit} {tes : List TreeEdit}

section

variable (h : treeEditsFromPatchset blobs edits = .ok tes)
include h

theorem writes_treeEdits : tes.flatMap Edit.writes = edits.flatMap Edit.writes := by
  have hforall := forall₂_of_mapM h
  clear h
  induction hforall with
  | nil => rfl
  | cons hte _ ih => rw [flatMap_cons, flatMap_cons, ih, (treeEdit_paths hte).1]

theorem exists_treeEdit (he : e ∈ edits) : ∃ te ∈ tes, treeEdit blobs e = .ok te :=
  exists_mapM_of_mem h he

theorem writtenParts_eq (htidy : ∀ e ∈ edits, ∀ p ∈ e.writes ++ e.reads, Tidy p) :
    writtenParts tes = edits.flatMap Edit.writes := by
  rw [writtenParts, writes_treeEdits h]
  refine (map_congr_left fun p hp => ?_).trans (map_id _)
  obtain ⟨e, he, hpe⟩ := mem_flatMap.mp hp
  exact (htidy e he p (mem_append_left _ hpe)).plain

end

end TreeEdits

theorem Flat.settled_not_folder {n n' : Node} {edits : List TreeEdit} (h : Flat n edits n')
    {e : TreeEdit} (he : e ∈ edits) (hp : p ∈ e.settled) : n'.folderAt (splitPath p) = false := by
  have heffect := h.effect e he
  cases e with
  | upsert | mkdir => cases hp
  | delete =>
    have hnone := heffect []
    rw [append_nil] at hnone
    rw [mem_singleton.mp hp, Node.folderAt, hnone]
  | rename =>
    obtain ⟨entry, hentry, hnew, hgone⟩ := heffect
    obtain ⟨f, rfl⟩ := h.source_file he (by simp [Edit.writes]) hentry
    have hfile := hnew []
    have hnone := hgone []
    rw [append_nil] at hfile hnone
    simp only [Edit.settled, mem_cons, not_mem_nil, or_false] at hp
    rcases hp with rfl | rfl
    · rw [Node.folderAt, hnone]
    · rw [Node.folderAt, hfile]
      rfl
  | copy =>
    obtain ⟨entry, hentry, hnew⟩ := heffect
    obtain ⟨f, rfl⟩ := h.source_file he (by simp [Edit.reads]) hentry
    have hfile := hnew []
    rw [append_nil] at hfile
    rw [mem_singleton.mp hp, Node.folderAt, hfile]
    rfl

theorem folderAt_mkdir {n n' : Node} (h : Edit.Effect n n' (.mkdir p)) :
    n'.folderAt (splitPath p) = true := by
  have hnew : (∃ c, n.getEntry (splitPath p) = some (.directory c) ∧
      n'.getEntry (splitPath p) = some (.directory c)) ∨
      n.getEntry (splitPath p) = none ∧ n'.getEntry (splitPath p) = some (.directory .nil) := h
  rcases hnew with ⟨c, -, hc⟩ | ⟨-, hc⟩
  · exact Node.folderAt_iff.mpr ⟨c, hc⟩
  · exact Node.folderAt_iff.mpr ⟨_, hc⟩

/-! ## Patchsets that land one after the other -/

/-- A patchset **lands** on a tree. -/
structure Lands (blobs : Table BlobID Blob) (n : Node) (ps : Patchset) (n' : Node) : Prop where
  proper : ps.Proper
  flat : ∃ tes, treeEditsFromPatchset blobs ps.fileEdits = .ok tes ∧ Flat n tes n'
  bases : ∀ b ∈ ps.pathBases, BaseHolds n b

/-- A patchset changes no path that another one settles, and none below one. -/
def Patchset.KeepsOff (ps' ps : Patchset) : Prop := ∀ p ∈ ps.settled, ∀ q ∈ ps'.writes, ¬ p <+: q

instance (ps' ps : Patchset) : Decidable (ps'.KeepsOff ps) :=
  inferInstanceAs (Decidable (∀ p ∈ ps.settled, ∀ q ∈ ps'.writes, ¬ p <+: q))

/-- The patchsets land one after the other, each keeping off those before it. -/
def LandChain (blobs : Table BlobID Blob) : Node → List Patchset → Node → Prop
  | n, [], T => T = n
  | n, ps :: rest, T =>
    (∃ n', Lands blobs n ps n' ∧ LandChain blobs n' rest T) ∧ ∀ ps' ∈ rest, ps'.KeepsOff ps

section Chains

variable {blobs : Table BlobID Blob} {n n' T : Node} {pss : List Patchset} {q : Path}

theorem Lands.untouched (h : Lands blobs n ps n') (hq : q ∉ ps.writes)
    (hfile : n'.folderAt q = false) :
    n'.getEntry q = n.getEntry q := by
  obtain ⟨tes, htes, hflat⟩ := h.flat
  have hparts := writtenParts_eq htes h.proper.tidy
  exact hflat.untouched (by rw [hparts]; exact hq) hfile

theorem Lands.folder_kept (h : Lands blobs n ps n') (hq : n.folderAt q = true) :
    n'.folderAt q = true := by
  obtain ⟨tes, -, hflat⟩ := h.flat
  exact hflat.folder_kept hq

theorem Lands.mono {blobs' : Table BlobID Blob}
    (hb : ∀ tes, treeEditsFromPatchset blobs ps.fileEdits = .ok tes →
      treeEditsFromPatchset blobs' ps.fileEdits = .ok tes) (h : Lands blobs n ps n') :
    Lands blobs' n ps n' := by
  obtain ⟨tes, htes, hflat⟩ := h.flat
  exact ⟨h.proper, ⟨tes, hb tes htes, hflat⟩, h.bases⟩

section

variable (h : LandChain blobs n pss T)
include h

theorem LandChain.folder_kept (hq : n.folderAt q = true) : T.folderAt q = true := by
  induction pss generalizing n with
  | nil =>
    rw [h]
    exact hq
  | cons ps pss ih =>
    obtain ⟨⟨n', hlands, hrest⟩, -⟩ := h
    exact ih hrest (hlands.folder_kept hq)

theorem LandChain.untouched (hq : ∀ ps ∈ pss, q ∉ ps.writes) (hfile : T.folderAt q = false) :
    T.getEntry q = n.getEntry q := by
  induction pss generalizing n with
  | nil =>
    rw [h]
  | cons ps pss ih =>
    obtain ⟨⟨n', hlands, hrest⟩, -⟩ := h
    have hrest_eq := ih hrest fun ps' hps' => hq ps' (mem_cons_of_mem ps hps')
    -- it was not a folder after the first one either, since folders stay
    have hfile' : n'.folderAt q = false := by
      by_contra hfolder
      rw [Bool.not_eq_false] at hfolder
      have hkept := hrest.folder_kept hfolder
      rw [hfile] at hkept
      cases hkept
    rw [hrest_eq, hlands.untouched (hq ps mem_cons_self) hfile']

theorem LandChain.append {T' : Node} (hlands : Lands blobs T ps T')
    (hoff : ∀ ps' ∈ pss, ps.KeepsOff ps') : LandChain blobs n (pss ++ [ps]) T' := by
  induction pss generalizing n with
  | nil =>
    subst h
    exact ⟨⟨T', hlands, rfl⟩, by simp⟩
  | cons ps₁ pss ih =>
    obtain ⟨⟨n', hfirst, hrest⟩, hoff₁⟩ := h
    refine ⟨⟨n', hfirst, ih hrest fun ps' hps' => hoff ps' (mem_cons_of_mem ps₁ hps')⟩, ?_⟩
    intro ps' hps'
    rcases mem_append.mp hps' with hps' | hps'
    · exact hoff₁ ps' hps'
    · rw [mem_singleton.mp hps']
      exact hoff ps₁ mem_cons_self

theorem LandChain.applyEditChain :
    ∃ sets trees, pss.mapM (fun ps => treeEditsFromPatchset blobs ps.fileEdits) = .ok sets ∧
      applyEditChain n sets = .ok trees ∧ trees.getLast?.getD n = T := by
  induction pss generalizing n with
  | nil =>
    exact ⟨[], [], rfl, rfl, h.symm⟩
  | cons ps pss ih =>
    obtain ⟨⟨n', hlands, hrest⟩, -⟩ := h
    obtain ⟨tes, htes, hflat⟩ := hlands.flat
    obtain ⟨sets, trees, hsets, htrees, hlast⟩ := ih hrest
    refine ⟨tes :: sets, n' :: trees, ?_, ?_, ?_⟩
    · rw [mapM_cons, htes, hsets]
      rfl
    · exact bind_eq_ok.mpr ⟨n', hflat.applies, bind_eq_ok.mpr ⟨trees, htrees, rfl⟩⟩
    · rw [← hlast, List.getLast?_cons]
      rfl

end

end Chains

/-! ## The rows of `path_heads` -/

/-- Every row is of a tidy path, and says what the tree has there unless that is a folder. -/
def HeadsAgree (heads : Table Path PathHead) (T : Node) : Prop :=
  ∀ p head, heads.get p = some head →
    Tidy p ∧ (T.folderAt p = false → head = .ofLookup (T.getEntry p))

section Heads

variable {blobs : Table BlobID Blob} {n m m' T T' : Node} {pss : List Patchset}
  {heads heads' : Table Path PathHead}

theorem baseHolds_of_valid {T : Node} (htidy : Tidy b.path)
    (h : validateAcceptedPathBase (.ofLookup (T.getEntry b.path)) b = true) : BaseHolds T b := by
  obtain ⟨hpresent, hfingerprint⟩ := validateAcceptedPathBase_iff.mp h
  rw [BaseHolds, htidy.plain, hpresent, hfingerprint]
  cases T.getEntry b.path with
  | none => rfl
  | some e =>
    have hthere : (PathHead.ofEntry e).present = true := by cases e <;> rfl
    exact (if_pos hthere).mpr ⟨e, rfl, rfl⟩

variable {bases : List PathBase}

/-- **Rows made on the way** from the ref's tree agree with the accepted tree, since every path that
a waiting patchset changes has a row. -/
theorem HeadsAgree.accepted {s : State} (h : HeadsAgree s.pathHeads T) (hindex : s.flatIndex = none)
    (hroot : s.rootTree s.ref = some n) (hchain : LandChain blobs n pss T)
    (hrows : ∀ ps ∈ pss, ∀ p ∈ ps.writes, (s.pathHeads.get p).isSome)
    (htidy : ∀ b ∈ bases, Tidy b.path)
    (hheads : acceptedHeads s bases = .ok heads) : HeadsAgree heads T := by
  obtain ⟨root, hroot', hget⟩ := get_acceptedHeads hheads
  rw [hroot] at hroot'
  cases hroot'
  intro p head hp
  rw [hget] at hp
  cases hold : s.pathHeads.get p with
  | some head' =>
    have heq : head' = head := by
      rw [hold] at hp
      split_ifs at hp <;> simpa using hp
    rw [← heq]
    exact h p head' hold
  | none =>
    rw [hold] at hp
    split_ifs at hp with hmem
    obtain ⟨b, hb, rfl⟩ := mem_map.mp hmem
    have hplain := (htidy b hb).plain
    refine ⟨htidy b hb, fun hfile => ?_⟩
    -- no waiting patchset changes the path, so the accepted tree has what the ref has
    have hnot : ∀ ps ∈ pss, b.path ∉ ps.writes := by
      intro ps hps hwrites
      have hsome := hrows ps hps b.path hwrites
      rw [hold] at hsome
      cases hsome
    have hhead : head = headAt n b.path := by
      rw [Option.getD_none, Option.some.injEq] at hp
      rw [← hp, initialPathHead, hindex]
    rw [hhead, headAt, hplain, hchain.untouched hnot hfile]

variable {tes : List TreeEdit} {edits : List FileEdit}

section

variable (hflat : Flat T tes T') (htes : treeEditsFromPatchset blobs edits = .ok tes)
  (htidy : ∀ e ∈ edits, ∀ p ∈ e.writes ++ e.reads, Tidy p)
include hflat htes htidy

theorem nodup_writes : (edits.flatMap Edit.writes).Nodup := by
  rw [← writtenParts_eq htes htidy]
  refine hflat.separate.apart.imp fun {p q} hover heq => ?_
  rw [heq] at hover
  exact hover (overlaps_self q)

theorem reads_notMem_writes : ∀ e ∈ edits, ∀ p ∈ e.reads, p ∉ edits.flatMap Edit.writes := by
  intro e he p hp hmem
  obtain ⟨te, hte, hedit⟩ := exists_treeEdit htes he
  rw [← writtenParts_eq htes htidy] at hmem
  have hread : p ∈ te.reads := by
    rw [(treeEdit_paths hedit).2.1]
    exact hp
  have hapart := hflat.separate.sources te hte p hread p hmem
  rw [(htidy e he p (mem_append_right _ hp)).plain] at hapart
  exact hapart (overlaps_self p)

end

section

variable (h : HeadsAgree heads T)
include h

/-- Bases that agree with rows that agree with a tree hold in the tree, where it has no folders. -/
theorem HeadsAgree.baseHolds (hhold : pathBasesHold heads bases = true) (hb : b ∈ bases)
    (hfile : T.folderAt b.path = false) : BaseHolds T b := by
  obtain ⟨head, hhead, hvalid⟩ := pathBasesHold_iff.mp hhold b hb
  obtain ⟨htidy, hagree⟩ := h b.path head hhead
  rw [hagree hfile] at hvalid
  exact baseHolds_of_valid htidy hvalid

theorem head_of_effect (hedit : treeEdit blobs e = .ok te)
    (htidy : ∀ p ∈ e.writes ++ e.reads, Tidy p)
    (hfiles : ∀ p ∈ te.writes ++ te.reads, T.folderAt (splitPath p) = false)
    (hheads : HeadEffect blobs heads heads' e) (htree : te.Effect T T') (hp : p ∈ e.writes)
    {head : PathHead} (hhead : heads'.get p = some head) (hfile : T'.folderAt p = false) :
    head = .ofLookup (T'.getEntry p) := by
  cases e with
  | upsert q =>
    obtain ⟨file, hfile', hte⟩ := bind_eq_ok.mp hedit
    cases hte
    obtain rfl : q = p := (mem_singleton.mp hp).symm
    obtain ⟨file', huploaded, hnew⟩ := hheads
    rw [hfile'] at huploaded
    cases huploaded
    rw [hhead] at hnew
    cases hnew
    have hentry : T'.getEntry (splitPath q) = some (.file file) := htree
    rw [(htidy q (by simp [Edit.writes, Edit.path])).plain] at hentry
    rw [hentry]
    rfl
  | delete q =>
    cases hedit
    obtain rfl : q = p := (mem_singleton.mp hp).symm
    have hnew : heads'.get q = some .missing := hheads
    have hnone := htree []
    rw [append_nil, (htidy q (by simp [Edit.writes, Edit.path])).plain] at hnone
    rw [hhead] at hnew
    cases hnew
    rw [hnone]
    rfl
  | mkdir q =>
    cases hedit
    obtain rfl : q = p := (mem_singleton.mp hp).symm
    have hfolder := folderAt_mkdir htree
    rw [(htidy q (by simp [Edit.writes, Edit.path])).plain, hfile] at hfolder
    cases hfolder
  | rename old q =>
    cases hedit
    have hold : splitPath old = old := (htidy old (by simp [Edit.writes])).plain
    have hq : splitPath q = q := (htidy q (by simp [Edit.writes])).plain
    obtain ⟨entry, hentry, hnew, hgone⟩ := htree
    obtain ⟨head₀, hhead₀, -, hmissing, hmoved⟩ := hheads
    rcases mem_cons.mp hp with rfl | hp
    · -- the source's row agrees with the tree, and both move
      have hagree := (h old head₀ hhead₀).2 (by
        rw [← hold]
        exact hfiles old (by simp [Edit.writes]))
      have hfile' := hnew []
      rw [append_nil, hq] at hfile'
      rw [hhead] at hmoved
      cases hmoved
      rw [hfile', hagree, ← hold, hentry]
      cases entry <;> rfl
    · rw [mem_singleton.mp hp] at hhead ⊢
      have hnone := hgone []
      rw [append_nil, hold] at hnone
      rw [hhead] at hmissing
      cases hmissing
      rw [hnone]
      rfl
  | copy old q =>
    cases hedit
    obtain rfl : q = p := (mem_singleton.mp hp).symm
    have hold : splitPath old = old := (htidy old (by simp [Edit.reads])).plain
    have hq : splitPath q = q := (htidy q (by simp [Edit.writes, Edit.path])).plain
    obtain ⟨entry, hentry, hnew⟩ := htree
    obtain ⟨head₀, hhead₀, -, hcopied⟩ := hheads
    have hagree := (h old head₀ hhead₀).2 (by
      rw [← hold]
      exact hfiles old (by simp [Edit.reads]))
    have hfile' := hnew []
    rw [append_nil, hq] at hfile'
    rw [hhead] at hcopied
    cases hcopied
    rw [hfile', hagree, ← hold, hentry]
    cases entry <;> rfl

/-- **An admission** of flat edits takes rows that agree with the tree before to rows that agree
with the tree after. -/
theorem HeadsAgree.edited (hproper : ps.Proper)
    (htes : treeEditsFromPatchset blobs ps.fileEdits = .ok tes) (hflat : Flat T tes T')
    (hheads : applyPathHeadEdits blobs heads ps.fileEdits = .ok heads') :
    HeadsAgree heads' T' ∧ ∀ p ∈ ps.writes, (heads'.get p).isSome := by
  have hnd := nodup_writes hflat htes hproper.tidy
  have hreads := reads_notMem_writes hflat htes hproper.tidy
  have heffect := headEffect_applyPathHeadEdits hheads hnd hreads
  constructor
  · intro p head hp
    by_cases hw : p ∈ ps.writes
    · obtain ⟨e, he, hpe⟩ := mem_flatMap.mp hw
      obtain ⟨te, hte, hedit⟩ := exists_treeEdit htes he
      exact ⟨hproper.tidy_writes hw, head_of_effect h hedit (hproper.tidy e he)
        (hflat.files te hte) (heffect e he) (hflat.effect te hte) hpe hp⟩
    · rw [get_applyPathHeadEdits_of_notMem hheads hw] at hp
      obtain ⟨htidy, hagree⟩ := h p head hp
      refine ⟨htidy, fun hfile => ?_⟩
      have hparts : p ∉ writtenParts tes := by
        rw [writtenParts_eq htes hproper.tidy]
        exact hw
      have hfile' : T.folderAt p = false := by
        by_contra hfolder
        have hkept := hflat.folder_kept (Bool.not_eq_false _ ▸ hfolder)
        rw [hfile] at hkept
        cases hkept
      rw [hagree hfile', hflat.untouched hparts hfile]
  · intro p hw
    obtain ⟨e, he, hpe⟩ := mem_flatMap.mp hw
    exact (heffect e he).isSome hpe

omit h in
/-- A path that is refreshed after a landing is tidy, and settled and not a folder, or a folder. -/
theorem Lands.refreshTarget (h : Lands blobs m ps m') {p : Path} {deep : Bool}
    (ht : RefreshTarget ps.fileEdits p deep) :
    Tidy p ∧ (p ∈ ps.settled ∧ m'.folderAt p = false ∨ deep = false ∧ m'.folderAt p = true) := by
  obtain ⟨tes, htes, hflat⟩ := h.flat
  rcases ht with ⟨e, he, hp⟩ | ⟨hdeep, hmkdir | ⟨e, he, w, hw, hpre, hne⟩⟩
  · have htidy : Tidy p := h.proper.tidy e he p
      (mem_append_left _ (Edit.settled_subset_writes e p hp))
    obtain ⟨te, hte, hedit⟩ := exists_treeEdit htes he
    have hfile := hflat.settled_not_folder hte (by rw [(treeEdit_paths hedit).2.2]; exact hp)
    rw [htidy.plain] at hfile
    exact ⟨htidy, .inl ⟨mem_flatMap.mpr ⟨e, he, hp⟩, hfile⟩⟩
  · have htidy : Tidy p := h.proper.tidy _ hmkdir p (by simp [Edit.writes, Edit.path])
    obtain ⟨te, hte, hedit⟩ := exists_treeEdit htes hmkdir
    cases hedit
    have hfolder := folderAt_mkdir (hflat.effect _ hte)
    rw [htidy.plain] at hfolder
    exact ⟨htidy, .inr ⟨hdeep, hfolder⟩⟩
  · have hwrites : w ∈ ps.writes := mem_flatMap.mpr ⟨e, he, hw⟩
    have hparts : w ∈ writtenParts tes := by
      rw [writtenParts_eq htes h.proper.tidy]
      exact hwrites
    exact ⟨(h.proper.tidy_writes hwrites).above hpre,
      .inr ⟨hdeep, hflat.folders w hparts p hpre hne⟩⟩

/-- **The refresh after a landing** keeps the rows in agreement with the accepted tree, if the
patchsets that still wait keep off the landed one. -/
theorem HeadsAgree.refreshed (hlands : Lands blobs m ps m') (hrest : LandChain blobs m' pss T)
    (hoff : ∀ ps' ∈ pss, ps'.KeepsOff ps) {mutations : List PathHeadMutation}
    (hmut : pathHeadMutationsForPatchsetRoot m' ps.fileEdits = some mutations) :
    HeadsAgree (applyPathHeadMutations heads mutations) T := by
  have htarget : ∀ t ∈ pathHeadRefreshTargetsForEdits ps.fileEdits, Tidy t.1 ∧
      (t.1 ∈ ps.settled ∧ m'.folderAt t.1 = false ∨ t.2 = false ∧
        m'.folderAt t.1 = true) := fun t ht =>
    hlands.refreshTarget (refreshTarget_of_mem ht)
  have hfile : ∀ t ∈ pathHeadRefreshTargetsForEdits ps.fileEdits, t.2 = true →
      m'.folderAt t.1 = false := by
    intro t ht hdeep
    rcases (htarget t ht).2 with ⟨-, hfile⟩ | ⟨hshallow, -⟩
    · exact hfile
    · rw [hdeep] at hshallow
      cases hshallow
  intro q head hq
  obtain ⟨hknown, hrow⟩ := get_refreshFrom (fun t ht => (htarget t ht).1.plain) hfile hmut hq
  constructor
  · rcases hknown with ⟨head', hget⟩ | ⟨head', hmem⟩ | ⟨t, ht, rfl⟩
    · exact (h q head' hget).1
    · cases hmem
    · exact (htarget t ht).1
  · intro hqfile
    rcases hrow with hget | hmem | ⟨hhead, t, ht, hcase⟩
    · exact (h q head hget).2 hqfile
    · cases hmem
    · have hpre : t.1 <+: q := by
        rcases hcase with rfl | ⟨-, hpre⟩
        · exact prefix_rfl
        · exact hpre
      rcases (htarget t ht).2 with ⟨hsettled, -⟩ | ⟨-, hfolder⟩
      · -- what waits does not change the path, so the accepted tree has what landed
        have hnot : ∀ ps' ∈ pss, q ∉ ps'.writes := fun ps' hps' hw =>
          hoff ps' hps' t.1 hsettled q hw hpre
        rw [hhead, hrest.untouched hnot hqfile]
      · -- a folder stays one, so the row is not in question
        rcases hcase with rfl | ⟨hnone, -⟩
        · have hkept := hrest.folder_kept hfolder
          rw [hqfile] at hkept
          cases hkept
        · rw [Node.folderAt, hnone] at hfolder
          cases hfolder

end

end Heads

end GitSlice
