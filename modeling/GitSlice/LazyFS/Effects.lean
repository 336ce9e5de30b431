import GitSlice.LazyFS.View

/-! # What plans do
A plan `Fits` a workspace when it changes entries in a region only, places them in directories, and
deletes or rewrites no content file of an entry outside the region. A plan that fits keeps the layer
sound and the view outside the region as it was (`Fits.sound`, `Fits.view`). The plans of the
operations fit; writing an entry changes the view at its path alone. -/

namespace GitSlice.LazyFS.FS

open List Table

variable {c : Content} {s : FS} {plan : Plan} {p q d : Path}

@[simp] theorem base_perform (s : FS) (plan : Plan) : (s.perform plan).base = s.base := by
  obtain ⟨create, set, garbage, edit, failure⟩ := plan
  cases create <;> cases edit <;> rfl

@[simp] theorem entries_perform (s : FS) (plan : Plan) :
    (s.perform plan).entries = s.entries.writeAll plan.set := by
  obtain ⟨create, set, garbage, edit, failure⟩ := plan
  cases create <;> cases edit <;> rfl

theorem nextName_perform (s : FS) (plan : Plan) :
    (s.perform plan).nextName = s.nextName + if plan.create.isSome then 1 else 0 := by
  obtain ⟨create, set, garbage, edit, failure⟩ := plan
  cases create <;> cases edit <;> rfl

/-- The content a plan has for a new file. -/
def created (s : FS) (plan : Plan) (name : Nat) : Option Bytes :=
  if name = s.nextName then plan.create.or (s.files.get name) else s.files.get name

/-- The in-place write of a plan to a file. -/
def edited (plan : Plan) (name : Nat) (data : Bytes) : Bytes :=
  match plan.edit with
  | some (name', write) => if name = name' then write data else data
  | none => data

theorem files_perform (s : FS) (plan : Plan) (name : Nat) :
    (s.perform plan).files.get name =
      if name ∈ plan.garbage then none else (s.created plan name).map (edited plan name) := by
  obtain ⟨create, set, garbage, edit, failure⟩ := plan
  have hcreated : ((s.writeLocal create).deleteLocal garbage).files.get name =
      if name ∈ garbage then none
      else if name = s.nextName then create.or (s.files.get name) else s.files.get name := by
    rw [deleteLocal, get_foldl_erase]
    cases create with
    | none => simp [writeLocal]
    | some data => simp [writeLocal, get_set]
  have hedit : (s.perform ⟨create, set, garbage, edit, failure⟩).files.get name =
      (((s.writeLocal create).deleteLocal garbage).files.get name).map
        (edited ⟨create, set, garbage, edit, failure⟩ name) := by
    cases edit with
    | none =>
      have hid : edited ⟨create, set, garbage, none, failure⟩ name = id := rfl
      rw [hid, Option.map_id]
      rfl
    | some x => exact get_update _ _ _
  rw [hedit, hcreated, created]
  split_ifs <;> rfl

theorem kindAt_perform {R : Path → Prop} (hR : Below R)
    (hframe : ∀ q, ¬ R q → (s.entries.writeAll plan.set).get q = s.entries.get q) (hq : ¬ R q) :
    (s.perform plan).kindAt q = s.kindAt q :=
  kindAt_congr hR (base_perform s plan) (fun r hr => by rw [entries_perform]; exact hframe r hr) hq

/-- The local file of an entry in a region. -/
def FileIn (s : FS) (R : Path → Prop) (name : Nat) : Prop :=
  ∃ q mode, R q ∧ s.entries.get q = some (.file mode name)

/-- The name of the file a plan creates. -/
def NewFile (s : FS) (plan : Plan) (name : Nat) : Prop := plan.create ≠ none ∧ name = s.nextName

/-- A plan that keeps to a region. -/
structure Fits (s : FS) (R : Path → Prop) (plan : Plan) : Prop where
  below : Below R
  frame : ∀ q, ¬ R q → (s.entries.writeAll plan.set).get q = s.entries.get q
  root : (s.entries.writeAll plan.set).get [] = none
  placed : ∀ q e, R q → (s.entries.writeAll plan.set).get q = some e → e ≠ .whiteout →
    ∀ d, d <+: q → d ≠ q → (s.perform plan).kindAt d = some .dir
  own : ∀ q mode name, R q → (s.entries.writeAll plan.set).get q = some (.file mode name) →
    name ∉ plan.garbage ∧ (s.NewFile plan name ∨ s.FileIn R name)
  apart : ∀ q r mode mode' name, R q → R r →
    (s.entries.writeAll plan.set).get q = some (.file mode name) →
    (s.entries.writeAll plan.set).get r = some (.file mode' name) → q = r
  garbage : ∀ name, name ∈ plan.garbage → s.FileIn R name
  edit : ∀ name write, plan.edit = some (name, write) → s.NewFile plan name ∨ s.FileIn R name
  normal : ∀ q e, R q → (s.entries.writeAll plan.set).get q = some e → NormalEntry e

variable {name mode : Nat}

theorem Sound.not_fileIn (hs : s.Sound) {R : Path → Prop} (hq : ¬ R q)
    (he : s.entries.get q = some (.file mode name)) : ¬ s.FileIn R name := by
  rintro ⟨r, mode', hr, hget⟩
  rw [hs.apart q r mode mode' name he hget] at hq
  exact hq hr

theorem Sound.not_newFile (hs : s.Sound) (he : s.entries.get q = some (.file mode name)) :
    ¬ s.NewFile plan name := by
  rintro ⟨-, hname⟩
  exact hs.present q mode name he (hs.fresh name hname.ge)

section Fits

variable {R : Path → Prop} (hs : s.Sound) (h : s.Fits R plan)
include hs h

theorem Fits.files (hq : ¬ R q) (he : s.entries.get q = some (.file mode name)) :
    (s.perform plan).files.get name = s.files.get name := by
  have hgarbage : name ∉ plan.garbage := fun hmem => hs.not_fileIn hq he (h.garbage name hmem)
  have hold : s.created plan name = s.files.get name := by
    rw [created]
    split_ifs with hname
    · exact absurd (hs.fresh name hname.ge) (hs.present q mode name he)
    · rfl
  have hedit : edited plan name = id := by
    funext data
    rw [edited]
    split
    · rename_i name' write hplan
      split_ifs with hname
      · rw [← hname] at hplan
        rcases h.edit name write hplan with hnew | hin
        · exact absurd hnew (hs.not_newFile he)
        · exact absurd hin (hs.not_fileIn hq he)
      · rfl
    · rfl
  rw [files_perform, if_neg hgarbage, hold, hedit, Option.map_id]
  rfl

/-- **Outside the region** the view is the same. -/
theorem Fits.view (hq : ¬ R q) : (s.perform plan).view c q = s.view c q :=
  view_congr h.below (base_perform s plan) (fun r hr => by rw [entries_perform]; exact h.frame r hr)
    hq fun _ _ he => h.files hs hq he

omit hs in
theorem Fits.kindAt (hq : ¬ R q) : (s.perform plan).kindAt q = s.kindAt q :=
  kindAt_perform h.below h.frame hq

/-- **A plan that fits keeps the layer sound.** -/
theorem Fits.sound : (s.perform plan).Sound := by
  constructor
  case root =>
    rw [entries_perform]
    exact h.root
  case above =>
    intro q e he hne d hd hdq
    rw [entries_perform] at he
    by_cases hq : R q
    · exact h.placed q e hq he hne d hd hdq
    · have hRd : ¬ R d := fun hRd => hq (h.below d q hRd hd)
      rw [h.frame q hq] at he
      rw [h.kindAt hRd]
      exact hs.above q e he hne d hd hdq
  case present =>
    intro q mode name he
    rw [entries_perform] at he
    by_cases hq : R q
    · obtain ⟨hgarbage, hfrom⟩ := h.own q mode name hq he
      rw [files_perform, if_neg hgarbage, created]
      rcases hfrom with ⟨hcreate, hname⟩ | ⟨r, mode', -, hget⟩
      · obtain ⟨data, hdata⟩ := Option.ne_none_iff_exists'.mp hcreate
        simp [hname, hdata]
      · have hold := hs.present r mode' name hget
        have hname : name ≠ s.nextName := fun heq => hold (hs.fresh name heq.ge)
        rw [if_neg hname]
        simpa using hold
    · rw [h.frame q hq] at he
      rw [h.files hs hq he]
      exact hs.present q mode name he
  case apart =>
    intro q r mode mode' name hq hr
    rw [entries_perform] at hq hr
    -- an entry of the region has a file of the region, or the new one
    have hcross : ∀ {q r : Path} {mode mode' : Nat}, R q → ¬ R r →
        (s.entries.writeAll plan.set).get q = some (.file mode name) →
        (s.entries.writeAll plan.set).get r = some (.file mode' name) → False := by
      intro q r mode mode' hRq hRr hq hr
      rw [h.frame r hRr] at hr
      rcases (h.own q mode name hRq hq).2 with hnew | hin
      · exact hs.not_newFile hr hnew
      · exact hs.not_fileIn hRr hr hin
    by_cases hRq : R q <;> by_cases hRr : R r
    · exact h.apart q r mode mode' name hRq hRr hq hr
    · exact (hcross hRq hRr hq hr).elim
    · exact (hcross hRr hRq hr hq).elim
    · rw [h.frame q hRq] at hq
      rw [h.frame r hRr] at hr
      exact hs.apart q r mode mode' name hq hr
  case fresh =>
    intro name hname
    rw [nextName_perform] at hname
    have hne : ¬ (name = s.nextName ∧ plan.create ≠ none) := by
      rintro ⟨heq, hcreate⟩
      rw [if_pos (Option.isSome_iff_ne_none.mpr hcreate)] at hname
      omega
    have hold : s.files.get name = none := hs.fresh name (by omega)
    rw [files_perform, created]
    split_ifs with hgarbage heq
    · rfl
    · have hcreate : plan.create = none := by
        by_contra hcreate
        exact hne ⟨heq, hcreate⟩
      rw [hcreate, hold]
      rfl
    · rw [hold]
      rfl
  case normal =>
    intro q e he
    rw [entries_perform] at he
    by_cases hq : R q
    · exact h.normal q e hq he
    · rw [h.frame q hq] at he
      exact hs.normal q e he

end Fits

/-! ## Writing one entry -/

/-- At and under a path. -/
def At (p q : Path) : Prop := p <+: q

theorem At.ne_nil (hq : At p q) (hp : p ≠ []) : q ≠ [] := by
  rintro rfl
  exact hp (prefix_nil.mp hq)

theorem below_at (p : Path) : Below (At p) := fun _ _ hq hle => hq.trans hle

theorem not_at (hd : d <+: p) (hne : d ≠ p) : ¬ At p d :=
  fun hp => hne (hd.eq_of_length (le_antisymm hd.length_le hp.length_le))

/-- An entry is written where a directory holds it and no directory is. -/
structure Puts (s : FS) (p : Path) (e : LocalEntry) (plan : Plan) : Prop where
  proper : p ≠ []
  parents : ∀ d, d <+: p → d ≠ p → s.kindAt d = some .dir
  free : s.kindAt p ≠ some .dir
  set : plan.set = [(p, some e)]
  name : ∀ mode name, e = .file mode name →
    name ∉ plan.garbage ∧ (s.NewFile plan name ∨ s.FileIn (At p) name)
  garbage : ∀ name, name ∈ plan.garbage → s.FileIn (At p) name
  edit : ∀ name write, plan.edit = some (name, write) → s.NewFile plan name ∨ s.FileIn (At p) name
  normal : NormalEntry e

variable {e : LocalEntry}

theorem Puts.get (h : s.Puts p e plan) (q : Path) :
    (s.entries.writeAll plan.set).get q = if q = p then some e else s.entries.get q := by
  rw [h.set, writeAll_cons, writeAll_nil, get_write]

theorem Sound.whiteout_under (hs : s.Sound) (hp : s.kindAt p ≠ some .dir) (hq : p <+: q)
    (hne : p ≠ q) (he : s.entries.get q = some e) : e = .whiteout := by
  by_contra hw
  exact hp (hs.above q e he hw p hq hne)

theorem Puts.fits (hs : s.Sound) (h : s.Puts p e plan) : s.Fits (At p) plan := by
  have hframe : ∀ q, ¬ At p q → (s.entries.writeAll plan.set).get q = s.entries.get q := by
    intro q hq
    rw [h.get, if_neg]
    rintro rfl
    exact hq (prefix_refl q)
  -- an entry in the region that shows something is the new one
  have honly : ∀ {q : Path} {e' : LocalEntry}, At p q →
      (s.entries.writeAll plan.set).get q = some e' → e' ≠ .whiteout → q = p ∧ e' = e := by
    intro q e' hq he' hne
    rw [h.get] at he'
    split_ifs at he' with hqp
    · exact ⟨hqp, (Option.some.inj he').symm⟩
    · exact absurd (hs.whiteout_under h.free hq (fun heq => hqp heq.symm) he') hne
  constructor
  case below => exact below_at p
  case frame => exact hframe
  case root =>
    rw [h.get, if_neg fun heq => h.proper heq.symm]
    exact hs.root
  case placed =>
    intro q e' hq he' hne d hd hdq
    obtain ⟨rfl, -⟩ := honly hq he' hne
    rw [kindAt_perform (below_at q) hframe (not_at hd hdq)]
    exact h.parents d hd hdq
  case own =>
    intro q mode name hq he'
    obtain ⟨-, heq⟩ := honly hq he' (by simp)
    exact h.name mode name heq.symm
  case apart =>
    intro q r mode mode' name hq hr heq her
    rw [(honly hq heq (by simp)).1, (honly hr her (by simp)).1]
  case garbage => exact h.garbage
  case edit => exact h.edit
  case normal =>
    intro q e' hq he'
    rw [h.get] at he'
    split_ifs at he'
    · cases he'
      exact h.normal
    · exact hs.normal q e' he'

/-- **Writing an entry** changes the view at its path alone. A directory must not bring back what
the base has at its path. -/
theorem Puts.view (hs : s.Sound) (h : s.Puts p e plan)
    (hshut : e = .dir false → ∀ b, s.base.lookup p = some b → b.kind ≠ .dir) :
    (s.perform plan).view c = Function.update (s.view c) p (entryObj c (s.perform plan).files e) := by
  have hfits := h.fits hs
  have hself : (s.perform plan).entries.get p = some e := by
    rw [entries_perform, h.get, if_pos rfl]
  funext q
  rw [Function.update_apply]
  split_ifs with hqp
  · rw [hqp, view_of_entry h.proper hself]
  by_cases hq : At p q
  · -- nothing was shown under the path, and nothing is
    have hne : p ≠ q := fun heq => hqp heq.symm
    have hnil := hq.ne_nil h.proper
    rw [hs.view_under h.free hq hne]
    cases he : s.entries.get q with
    | some e' =>
      have hget : (s.perform plan).entries.get q = some e' := by
        rw [entries_perform, h.get, if_neg hqp, he]
      rw [view_of_entry hnil hget, hs.whiteout_under h.free hq hne he]
      rfl
    | none =>
      have hget : (s.perform plan).entries.get q = none := by
        rw [entries_perform, h.get, if_neg hqp, he]
      rw [view_of_none hnil hget]
      split_ifs with hvisible
      · have hclear := baseVisible_iff.mp hvisible p hq hne h.proper
        rw [Clear, hself] at hclear
        have hdir : e = .dir false := by simpa using hclear
        rw [base_perform]
        cases hb : s.base.lookup q with
        | none => rfl
        | some b =>
          obtain ⟨b', hb', hkind⟩ := Manifest.lookup_above (by rw [hb]; simp) hq hne
          exact absurd hkind (hshut hdir b' hb')
      · rfl
  · exact hfits.view hs hq

/-! ## Deleting entries -/

theorem mem_localFilesUnder : name ∈ s.localFilesUnder p ↔ s.FileIn (At p) name := by
  rw [localFilesUnder, mem_filterMap]
  constructor
  · rintro ⟨q, hq, hname⟩
    rw [mem_localEntriesUnder] at hq
    split at hname
    · rename_i mode name' hget
      cases hname
      exact ⟨q, mode, hq.1, hget⟩
    · cases hname
  · rintro ⟨q, mode, hq, hget⟩
    refine ⟨q, mem_localEntriesUnder.mpr ⟨hq, by rw [hget]; simp⟩, ?_⟩
    rw [hget]

theorem get_clear (s : FS) (p q : Path) :
    (s.entries.writeAll ((s.localEntriesUnder p).map fun r => (r, none))).get q =
      if p.isPrefixOf q then none else s.entries.get q := by
  have hkeys : ((s.localEntriesUnder p).map fun r => ((r, none) : Path × Option LocalEntry)).map Prod.fst =
      s.localEntriesUnder p := by
    rw [map_map]
    exact map_id _
  by_cases hmem : q ∈ s.localEntriesUnder p
  · rw [if_pos <| isPrefixOf_iff_prefix.mpr (mem_localEntriesUnder.mp hmem).1]
    refine get_writeAll_of_forall _ (by rw [hkeys]; exact hmem) fun o' ho' => ?_
    obtain ⟨r, -, heq⟩ := mem_map.mp ho'
    cases heq
    rfl
  · rw [get_writeAll_of_notMem _ (by rw [hkeys]; exact hmem)]
    split_ifs with hunder
    · by_contra hget
      exact hmem (mem_localEntriesUnder.mpr ⟨by simpa using hunder, hget⟩)
    · rfl

theorem get_removal (s : FS) (p q : Path) :
    (s.entries.writeAll (s.removal p)).get q =
      if p.isPrefixOf q then
        if q = p ∧ (s.base.lookup p).isSome ∧ s.baseVisible p then some .whiteout else none
      else s.entries.get q := by
  rw [removal, writeAll_append]
  by_cases hbase : (s.base.lookup p).isSome ∧ s.baseVisible p
  · rw [if_pos hbase, writeAll_cons, writeAll_nil, get_write, get_clear]
    by_cases hqp : q = p
    · subst hqp
      rw [if_pos rfl, if_pos <| isPrefixOf_iff_prefix.mpr (prefix_refl q),
        if_pos ⟨rfl, hbase⟩]
    · have hnot : ¬ (q = p ∧ (s.base.lookup p).isSome ∧ s.baseVisible p) := fun h => hqp h.1
      rw [if_neg hqp, if_neg hnot]
  · have hnot : ¬ (q = p ∧ (s.base.lookup p).isSome ∧ s.baseVisible p) := fun h => hbase h.2
    rw [if_neg hbase, writeAll_nil, get_clear, if_neg hnot]

theorem fits_clear (hs : s.Sound) (hgarbage : plan.garbage = s.localFilesUnder p)
    (hedit : plan.edit = none) (hp : p = [] → (s.entries.writeAll plan.set).get [] = none)
    (hframe : ∀ q, ¬ At p q → (s.entries.writeAll plan.set).get q = s.entries.get q)
    (hclear : ∀ q e, At p q → (s.entries.writeAll plan.set).get q = some e → e = .whiteout) :
    s.Fits (At p) plan := by
  constructor
  case below => exact below_at p
  case frame => exact hframe
  case root =>
    by_cases hnil : p = []
    · exact hp hnil
    · rw [hframe [] fun h => hnil (prefix_nil.mp h)]
      exact hs.root
  case placed => exact fun q e hq he hne => absurd (hclear q e hq he) hne
  case own =>
    intro q mode name hq he
    cases hclear q _ hq he
  case apart =>
    intro q r mode mode' name hq _ he
    cases hclear q _ hq he
  case garbage =>
    intro name hname
    rw [hgarbage] at hname
    exact mem_localFilesUnder.mp hname
  case edit =>
    intro name write hplan
    rw [hedit] at hplan
    cases hplan
  case normal =>
    intro q e hq he
    rw [hclear q e hq he]
    trivial

theorem fits_remove (hs : s.Sound) (hp : p ≠ []) :
    s.Fits (At p) { set := s.removal p, garbage := s.localFilesUnder p } := by
  refine fits_clear hs rfl rfl (fun h => absurd h hp) (fun q hq => ?_) fun q e hq he => ?_
  · rw [get_removal, if_neg fun h => hq <| isPrefixOf_iff_prefix.mp h]
  · rw [get_removal, if_pos <| isPrefixOf_iff_prefix.mpr hq] at he
    split_ifs at he
    exact (Option.some.inj he).symm

theorem view_removed {s' : FS} (hp : p ≠ []) (hbase : s'.base = s.base)
    (hentries : ∀ q, At p q → s'.entries.get q =
      if q = p ∧ (s.base.lookup p).isSome ∧ s.baseVisible p then some .whiteout else none)
    (hvisible : s'.baseVisible p = s.baseVisible p) (hq : At p q) : s'.view c q = none := by
  have hnil := hq.ne_nil hp
  have hget := hentries q hq
  split_ifs at hget with hw
  · rw [view_of_entry hnil hget]
    rfl
  · rw [view_of_none hnil hget]
    split_ifs with hshow
    · -- the base shows at `q`: then it shows at `p`, where the whiteout is
      rw [hbase]
      cases hb : s.base.lookup q with
      | none => rfl
      | some b =>
        have hpv : s.baseVisible p = true := by
          rw [← hvisible]
          exact baseVisible_below hshow hq
        have hpb : (s.base.lookup p).isSome = true := by
          by_cases hqp : p = q
          · rw [hqp, hb]
            rfl
          · obtain ⟨b', hb', -⟩ := Manifest.lookup_above (by rw [hb]; simp) hq hqp
            rw [hb']
            rfl
        have hself := hentries p (prefix_refl p)
        rw [if_pos ⟨rfl, hpb, hpv⟩] at hself
        by_cases hqp : p = q
        · exact absurd ⟨hqp.symm, hpb, hpv⟩ hw
        · have hclear := baseVisible_iff.mp hshow p hq hqp hp
          rw [Clear, hself] at hclear
          simp at hclear
    · rfl

/-- **Removing** what has nothing under it changes the view at its path alone. -/
theorem view_remove (hs : s.Sound) (hp : p ≠ []) (hleaf : ∀ q, At p q → q ≠ p → s.view c q = none) :
    (s.perform { set := s.removal p, garbage := s.localFilesUnder p }).view c =
      Function.update (s.view c) p none := by
  have hfits := fits_remove hs hp
  funext q
  rw [Function.update_apply]
  by_cases hq : At p q
  · have hgone : (s.perform { set := s.removal p, garbage := s.localFilesUnder p }).view c q = none := by
      refine view_removed hp (base_perform s _) (fun r hr => ?_) ?_ hq
      · rw [entries_perform, get_removal, if_pos <| isPrefixOf_iff_prefix.mpr hr]
      · refine baseVisible_eq fun d hd hne => ?_
        rw [entries_perform, hfits.frame d (not_at hd hne)]
    rw [hgone]
    split_ifs with hqp
    · rfl
    · exact (hleaf q hq hqp).symm
  · have hqp : q ≠ p := by
      rintro rfl
      exact hq (prefix_refl q)
    rw [if_neg hqp]
    exact hfits.view hs hq

theorem fits_restore (hs : s.Sound) :
    s.Fits (At p) { set := (s.localEntriesUnder p).map fun q => (q, none),
                    garbage := s.localFilesUnder p } := by
  have hgone : ∀ q, At p q →
      (s.entries.writeAll ((s.localEntriesUnder p).map fun r => (r, none))).get q = none := by
    intro q hq
    rw [get_clear, if_pos <| isPrefixOf_iff_prefix.mpr hq]
  refine fits_clear hs rfl rfl (fun h => hgone [] (by rw [h]; exact prefix_refl []))
    (fun q hq => ?_)
    fun q e hq he => ?_
  · rw [get_clear, if_neg fun h => hq <| isPrefixOf_iff_prefix.mp h]
  · rw [hgone q hq] at he
    cases he

end GitSlice.LazyFS.FS
