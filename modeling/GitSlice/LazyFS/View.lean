import GitSlice.LazyFS.Ops

/-! # The merged view
What a workspace shows, as a partial map from paths to objects (`FS.view`). A local layer is `Sound`
when every entry that shows something lies in directories of the view and has a content file of its
own. Then the view is a tree, and a batch of entries changes it only at and under the paths of the
batch. -/

namespace GitSlice.LazyFS

open List

/-- What a path of a file system holds. -/
inductive Obj where
  /-- A file: its mode and its content. -/
  | file (mode : Nat) (data : Bytes)
  /-- A directory. -/
  | dir
  /-- A symlink and its target. -/
  | symlink (target : String)
deriving DecidableEq

/-- The kind of an object. -/
def Obj.kind : Obj → Kind
  | .file _ _ => .file
  | .dir => .dir
  | .symlink _ => .symlink

/-- The mode of an object. -/
def Obj.mode : Obj → Nat
  | .file mode _ => mode
  | .dir => modeDir
  | .symlink _ => modeSymlink

@[simp] theorem Obj.kind_eq_dir {o : Obj} : o.kind = .dir ↔ o = .dir := by
  cases o <;> simp [kind]

/-- What a base entry shows. -/
def baseObj (c : Content) (e : BaseEntry) : Obj :=
  match e.kind with
  | .file => .file e.mode (c.fetch e.contentHash)
  | .dir => .dir
  | .symlink => .symlink e.target

@[simp] theorem kind_baseObj (c : Content) (e : BaseEntry) : (baseObj c e).kind = e.kind := by
  rw [baseObj]
  cases e.kind <;> rfl

namespace FS

variable (c : Content) (s : FS)

/-- What a local entry shows. -/
def entryObj (files : Table Nat Bytes) : LocalEntry → Option Obj
  | .whiteout => none
  | .file mode name => some (.file mode ((files.get name).getD []))
  | .ref mode hash _ => some (.file mode (c.fetch hash))
  | .dir _ => some .dir
  | .symlink target => some (.symlink target)

/-- What the workspace shows at a path. -/
def view (p : Path) : Option Obj :=
  if p = [] then some .dir
  else
    match s.entries.get p with
    | some e => entryObj c s.files e
    | none => if s.baseVisible p then (s.base.lookup p).map (baseObj c) else none

/-- The object of a node. -/
def nodeObj (n : ViewNode) : Obj :=
  match n.kind with
  | .file =>
    .file n.mode (match n.file with
      | some name => (s.files.get name).getD []
      | none => c.fetch n.hash)
  | .dir => .dir
  | .symlink => .symlink n.target

@[simp] theorem kind_nodeObj (n : ViewNode) : (s.nodeObj c n).kind = n.kind := by
  rw [nodeObj]
  cases n.kind <;> rfl

variable {c s} {p q d : Path}

theorem view_eq_lookup : s.view c p = (s.lookup p).map (s.nodeObj c) := by
  rw [view, lookup]
  split_ifs with hp hvisible
  · rfl
  · cases s.entries.get p with
    | none =>
      simp only [Option.map_map]
      refine congrArg (Option.map · _) (funext fun e => ?_)
      rw [Function.comp_apply, baseObj, nodeObj, baseNode]
    | some e => cases e <;> rfl
  · cases s.entries.get p with
    | none => rfl
    | some e => cases e <;> rfl

/-- The kind of what is at a path. -/
def kindAt (s : FS) (p : Path) : Option Kind := (s.lookup p).map ViewNode.kind

theorem kindAt_eq_view (c : Content) : s.kindAt p = (s.view c p).map Obj.kind := by
  rw [view_eq_lookup, Option.map_map]
  exact congrArg (Option.map · _) (funext fun n => (s.kind_nodeObj c n).symm)

theorem kindAt_eq_dir (c : Content) : s.kindAt p = some .dir ↔ s.view c p = some .dir := by
  rw [kindAt_eq_view c]
  cases s.view c p <;> simp

theorem kindAt_eq_none (c : Content) : s.kindAt p = none ↔ s.view c p = none := by
  rw [kindAt_eq_view c, Option.map_eq_none_iff]

@[simp] theorem view_root (c : Content) (s : FS) : s.view c [] = some .dir := rfl

/-! ## Where the base shows through -/

/-- An entry the base shows through. -/
def Clear (entries : Table Path LocalEntry) (d : Path) : Prop :=
  entries.get d = none ∨ entries.get d = some (.dir false)

theorem visibleAbove_iff {entries : Table Path LocalEntry} {r : List String} :
    visibleAbove entries r = true ↔ ∀ d, d <+: r.reverse → d ≠ [] → Clear entries d := by
  induction r with
  | nil => simp [visibleAbove]
  | cons name above ih =>
    have hsplit : (∀ d, d <+: (name :: above).reverse → d ≠ [] → Clear entries d) ↔
        Clear entries (name :: above).reverse ∧
          ∀ d, d <+: above.reverse → d ≠ [] → Clear entries d := by
      rw [reverse_cons]
      constructor
      · intro h
        exact ⟨h _ (prefix_refl _) (by simp), fun d hd =>
          h d (hd.trans (prefix_append _ _))⟩
      · rintro ⟨hself, habove⟩ d hd hne
        rcases prefix_concat_iff.mp hd with rfl | hd
        · exact hself
        · exact habove d hd hne
    rw [hsplit, visibleAbove, Clear]
    split <;> simp_all

theorem prefix_dropLast_iff (hd : d ≠ []) : d <+: p.dropLast ↔ d <+: p ∧ d ≠ p := by
  rcases eq_nil_or_concat' p with rfl | ⟨q, n, rfl⟩
  · simp [hd]
  · rw [dropLast_concat, prefix_concat_iff]
    refine ⟨fun h => ⟨.inr h, ?_⟩, fun h => h.1.resolve_left h.2⟩
    rintro rfl
    have hlen := h.length_le
    simp at hlen

theorem baseVisible_iff :
    s.baseVisible p = true ↔ ∀ d, d <+: p → d ≠ p → d ≠ [] → Clear s.entries d := by
  rw [baseVisible, visibleAbove_iff, reverse_reverse]
  constructor
  · exact fun h d hd hne hnil => h d ((prefix_dropLast_iff hnil).mpr ⟨hd, hne⟩) hnil
  · intro h d hd hnil
    obtain ⟨hle, hne⟩ := (prefix_dropLast_iff hnil).mp hd
    exact h d hle hne hnil

theorem baseVisible_below (hp : s.baseVisible p = true) (hd : d <+: p) :
    s.baseVisible d = true := by
  rw [baseVisible_iff] at hp ⊢
  intro x hx hne
  refine hp x (hx.trans hd) ?_
  rintro rfl
  exact hne (hx.eq_of_length (le_antisymm hx.length_le hd.length_le))

variable {e : LocalEntry}

theorem view_of_entry (hp : p ≠ []) (he : s.entries.get p = some e) :
    s.view c p = entryObj c s.files e := by
  rw [view, if_neg hp, he]

theorem view_of_none (hp : p ≠ []) (he : s.entries.get p = none) :
    s.view c p = if s.baseVisible p then (s.base.lookup p).map (baseObj c) else none := by
  rw [view, if_neg hp, he]

theorem entryObj_ne_none {files : Table Nat Bytes} : entryObj c files e ≠ none ↔ e ≠ .whiteout := by
  cases e <;> simp [entryObj]

/-! ## Sound layers -/

/-- The mode an entry records is normal. -/
def NormalEntry : LocalEntry → Prop
  | .file mode _ => normalizeFileMode mode = mode
  | .ref mode _ _ => normalizeFileMode mode = mode
  | _ => True

/-- What holds of the layer of every workspace. -/
structure Sound (s : FS) : Prop where
  root : s.entries.get [] = none
  above : ∀ p e, s.entries.get p = some e → e ≠ .whiteout → ∀ d, d <+: p → d ≠ p →
    s.kindAt d = some .dir
  present : ∀ p mode name, s.entries.get p = some (.file mode name) → s.files.get name ≠ none
  apart : ∀ p q mode mode' name, s.entries.get p = some (.file mode name) →
    s.entries.get q = some (.file mode' name) → p = q
  fresh : ∀ name, s.nextName ≤ name → s.files.get name = none
  normal : ∀ p e, s.entries.get p = some e → NormalEntry e

theorem Sound.kindAt_above (h : s.Sound) (hp : s.kindAt p ≠ none) (hd : d <+: p) (hne : d ≠ p) :
    s.kindAt d = some .dir := by
  let c : Content := ⟨fun _ => [], fun _ => ""⟩
  by_cases hnil : p = []
  · subst hnil
    exact absurd (prefix_nil.mp hd) hne
  rw [ne_eq, kindAt_eq_none c] at hp
  cases he : s.entries.get p with
  | some e =>
    rw [view_of_entry hnil he] at hp
    exact h.above p e he (entryObj_ne_none.mp hp) d hd hne
  | none =>
    -- the base shows at `p`, so it shows at the directory above
    rw [view_of_none hnil he] at hp
    split_ifs at hp with hvisible
    · by_cases hdnil : d = []
      · rw [hdnil]
        rfl
      · have hbase : s.base.lookup p ≠ none := by
          intro hnone
          rw [hnone] at hp
          exact hp rfl
        obtain ⟨e, he', hkind⟩ := Manifest.lookup_above hbase hd hne
        rw [kindAt_eq_dir c]
        rcases baseVisible_iff.mp hvisible d hd hne hdnil with hget | hget
        · rw [view_of_none hdnil hget, if_pos (baseVisible_below hvisible hd), he']
          simp [baseObj, hkind]
        · rw [view_of_entry hdnil hget]
          rfl
    · exact absurd rfl hp

theorem Sound.view_under (h : s.Sound) (hd : s.kindAt d ≠ some .dir) (hp : d <+: p) (hne : d ≠ p) :
    s.view c p = none := by
  rw [← kindAt_eq_none]
  by_contra hnone
  exact hd (h.kindAt_above hnone hp hne)

/-! ## Names of a directory -/

theorem mem_childNames {n : ViewNode} (hn : s.lookup p = some n) (hdir : n.kind = .dir)
    {name : String} :
    name ∈ s.childNames p n ↔ s.lookup (p ++ [name]) ≠ none := by
  have hnil : p ++ [name] ≠ [] := by simp
  simp only [childNames, mem_insertionSort, mem_filter, mem_dedup, mem_append,
    Option.isSome_iff_ne_none]
  refine and_iff_right_of_imp fun hshown => ?_
  cases he : s.entries.get (p ++ [name]) with
  | some e =>
    refine .inr (mem_filterMap.mpr ⟨(p ++ [name], e), ?_, Manifest.childName_eq_some.mpr rfl⟩)
    exact (s.entries.mem_rows_iff _ e).mpr he
  | none =>
    -- the base shows the name, so it shows the directory
    rw [lookup, if_neg hnil, he] at hshown
    split_ifs at hshown with hvisible
    · have hbase : s.base.lookup (p ++ [name]) ≠ none := by
        intro hnone
        rw [hnone] at hshown
        exact hshown rfl
      obtain ⟨e, hbp, hkind⟩ := s.base.parents p name hbase
      have hx : s.baseVisible (p ++ ["x"]) = true := by
        rw [baseVisible, dropLast_concat] at hvisible ⊢
        exact hvisible
      have hshut : n.isOpaque = false := by
        by_cases hp : p = []
        · subst hp
          cases hn
          rfl
        · have hclear := baseVisible_iff.mp hvisible p (prefix_append p [name]) (by simp) hp
          rw [lookup, if_neg hp] at hn
          rcases hclear with hget | hget
          · rw [hget] at hn
            split_ifs at hn
            obtain ⟨e', -, rfl⟩ := Option.map_eq_some_iff.mp hn
            rfl
          · rw [hget] at hn
            cases hn
            rfl
      refine .inl ?_
      have hlookup : s.base.lookup p = some e := hbp
      simp only [hlookup, hkind, hshut, hx, Bool.false_eq_true, not_false_eq_true,
        or_true, and_self, if_true]
      exact Manifest.mem_children.mpr hbase
    · exact absurd rfl hshown

theorem nodup_childNames (s : FS) (p : Path) (n : ViewNode) : (s.childNames p n).Nodup :=
  (perm_insertionSort _ _).nodup_iff.mpr ((nodup_dedup _).filter _)

theorem pairwise_childNames (s : FS) (p : Path) (n : ViewNode) :
    (s.childNames p n).Pairwise (· ≤ ·) := pairwise_insertionSort _ _

/-! ## Batches -/

theorem mem_localEntriesUnder : q ∈ s.localEntriesUnder p ↔ p <+: q ∧ s.entries.get q ≠ none := by
  rw [localEntriesUnder, mem_insertionSort, mem_filter, mem_map, contains_iff, and_comm]
  refine and_congr_right fun _ => ?_
  constructor
  · rintro ⟨⟨r, e⟩, hmem, rfl⟩
    rw [(s.entries.mem_rows_iff r e).mp hmem]
    simp
  · intro hget
    obtain ⟨e, he⟩ := Option.ne_none_iff_exists'.mp hget
    exact ⟨(q, e), (s.entries.mem_rows_iff q e).mpr he, rfl⟩

/-- A set of paths with everything under them. -/
def Below (R : Path → Prop) : Prop := ∀ p q, R p → p <+: q → R q

variable {R : Path → Prop} {s' : FS}

theorem baseVisible_eq (h : ∀ d, d <+: p → d ≠ p → s'.entries.get d = s.entries.get d) :
    s'.baseVisible p = s.baseVisible p := by
  rw [Bool.eq_iff_iff, baseVisible_iff, baseVisible_iff]
  refine forall_congr' fun d => forall_congr' fun hd => forall_congr' fun hne => ?_
  rw [Clear, Clear, h d hd hne]

section

variable (hR : Below R) (hbase : s'.base = s.base)
  (hentries : ∀ q, ¬ R q → s'.entries.get q = s.entries.get q) (hp : ¬ R p)
include hR hbase hentries hp

theorem view_eq {β : Type} (f : Option Obj → β)
    (hf : ∀ e, s.entries.get p = some e → f (entryObj c s'.files e) = f (entryObj c s.files e)) :
    f (s'.view c p) = f (s.view c p) := by
  have hvisible := baseVisible_eq fun d hd _ => hentries d fun hRd => hp (hR d p hRd hd)
  by_cases hnil : p = []
  · subst hnil
    rfl
  cases he : s.entries.get p with
  | some e =>
    rw [view_of_entry hnil he, view_of_entry hnil ((hentries p hp).trans he)]
    exact hf e he
  | none =>
    rw [view_of_none hnil he, view_of_none hnil ((hentries p hp).trans he), hvisible, hbase]

theorem kindAt_congr : s'.kindAt p = s.kindAt p := by
  let c : Content := ⟨fun _ => [], fun _ => ""⟩
  rw [kindAt_eq_view c, kindAt_eq_view c]
  refine view_eq hR hbase hentries hp (Option.map Obj.kind) fun e _ => ?_
  cases e <;> rfl

/-- Outside a region that was changed, the view is the same if the content is. -/
theorem view_congr

    (hfiles : ∀ mode name, s.entries.get p = some (.file mode name) →
      s'.files.get name = s.files.get name) :
    s'.view c p = s.view c p := by
  refine view_eq hR hbase hentries hp id fun e he => ?_
  cases e with
  | file mode name => simp only [entryObj, hfiles mode name he]
  | _ => rfl

end

end FS

end GitSlice.LazyFS
