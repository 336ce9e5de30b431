import GitSlice.LazyFS.Posix
import GitSlice.LazyFS.Rename

/-! # A workspace is a plain file system
Each operation of a workspace agrees with the one of a plain file system that holds what the
workspace shows: the same class of error, or the same tree afterwards. So in every run over a base
the workspace shows the tree of the plain file system that started with the base's content
(`overlay_refines_posix`). The root is the exception: the operations that would replace it are
refused as invalid. -/

namespace GitSlice.LazyFS

open List

namespace FS

variable {c : Content} {s : FS} {p q d : Path}

/-! ## Resolving paths -/

theorem nodeObj_eq_dir {n : ViewNode} : s.nodeObj c n = .dir ↔ n.kind = .dir := by
  rw [← Obj.kind_eq_dir, kind_nodeObj]

theorem resolveAlong_eq (c : Content) (op : String) (p done : Path) (l : List String) :
    s.resolveAlong op p done l = (Tree.walk (s.view c) done l).mapError (.path op p) := by
  induction l generalizing done with
  | nil => rfl
  | cons name rest ih =>
    rw [resolveAlong, Tree.walk, view_eq_lookup]
    cases s.lookup (done ++ [name]) with
    | none => rfl
    | some n =>
      simp only [Option.map_some]
      by_cases hkind : n.kind = .dir
      · rw [if_pos hkind, if_pos (nodeObj_eq_dir.mpr hkind)]
        exact ih _
      · rw [if_neg hkind, if_neg fun h => hkind (nodeObj_eq_dir.mp h)]
        rfl

theorem resolveParent_eq (c : Content) (op : String) (hp : p ≠ []) :
    s.resolveParent op p = (Tree.parent (s.view c) p).mapError (.path op p) := by
  rw [resolveParent, if_neg hp]
  exact resolveAlong_eq c op p [] p.dropLast

theorem walk_ok {t : Tree} {done : Path} {l : List String} (h : t.walk done l = .ok ()) :
    ∀ r, r <+: l → r ≠ [] → t (done ++ r) = some .dir := by
  induction l generalizing done with
  | nil =>
    intro r hr hne
    exact absurd (prefix_nil.mp hr) hne
  | cons name rest ih =>
    rw [Tree.walk] at h
    split at h
    · cases h
    · rename_i o ho
      split_ifs at h with hdir
      rintro r hr hne
      obtain ⟨a, r, rfl⟩ := exists_cons_of_ne_nil hne
      obtain ⟨rfl, hrest⟩ := cons_prefix_cons.mp hr
      by_cases hnil : r = []
      · rw [hnil, ho, hdir]
      · have hdeep := ih h r hrest hnil
        simpa using hdeep

/-- Once the directory of a path is resolved, everything above the path is a directory. -/
theorem parents_of_ok (h : Tree.parent (s.view c) p = .ok ()) :
    ∀ d, d <+: p → d ≠ p → s.kindAt d = some .dir := by
  intro d hd hne
  rw [kindAt_eq_dir c]
  by_cases hnil : d = []
  · rw [hnil]
    rfl
  · rcases eq_nil_or_concat p with rfl | ⟨q, n, rfl⟩
    · exact absurd (prefix_nil.mp hd) hnil
    · rw [concat_eq_append] at hd hne
      rw [Tree.parent, concat_eq_append, dropLast_concat] at h
      have hle := (prefix_concat_iff.mp hd).resolve_left hne
      exact walk_ok h d hle hnil

variable {cls : ErrClass}

theorem resolve_error (c : Content) (op : String) (h : Tree.find (s.view c) p = .error cls) :
    s.resolve op p = .error (.path op p cls) := by
  rw [Tree.find] at h
  split_ifs at h with hp
  rw [resolve, if_neg hp, resolveParent_eq c op hp]
  cases hparent : Tree.parent (s.view c) p with
  | error =>
    rw [hparent] at h
    cases h
    rfl
  | ok =>
    rw [hparent, view_eq_lookup] at h
    cases hl : s.lookup p with
    | none =>
      rw [hl] at h
      cases h
      simp only [Except.mapError, bind, Except.bind]
    | some n =>
      rw [hl] at h
      cases h

variable {o : Obj}

theorem kind_of_nodeObj {n : ViewNode} (h : s.nodeObj c n = o) : n.kind = o.kind := by
  rw [← h, kind_nodeObj]

theorem resolve_ok (c : Content) (op : String) (h : Tree.find (s.view c) p = .ok o) :
    ∃ n, s.resolve op p = .ok n ∧ s.lookup p = some n ∧ s.nodeObj c n = o ∧
      ∀ d, d <+: p → d ≠ p → s.kindAt d = some .dir := by
  rw [Tree.find] at h
  split_ifs at h with hp
  · cases h
    subst hp
    exact ⟨_, rfl, rfl, rfl, fun d hd hne => absurd (prefix_nil.mp hd) hne⟩
  · rw [resolve, if_neg hp, resolveParent_eq c op hp]
    cases hparent : Tree.parent (s.view c) p with
    | error =>
      rw [hparent] at h
      cases h
    | ok =>
      rw [hparent, view_eq_lookup] at h
      cases hl : s.lookup p with
      | none =>
        rw [hl] at h
        cases h
      | some n =>
        rw [hl] at h
        cases h
        exact ⟨n, by simp only [Except.mapError, bind, Except.bind], rfl, rfl,
          parents_of_ok hparent⟩

/-- An operation agrees with the one of a plain file system. -/
def Agrees (c : Content) (s : FS) (outcome : Except FSError Plan) : Except ErrClass Tree → Prop
  | .error cls =>
    (∃ e, outcome = .error e ∧ e.cls = some cls) ∨
      ∃ plan e, outcome = .ok plan ∧ plan.failure = some e ∧ e.cls = some cls ∧
        (s.perform plan).Sound ∧ (s.perform plan).view c = s.view c
  | .ok t => ∃ plan, outcome = .ok plan ∧ plan.failure = none ∧
      (s.perform plan).Sound ∧ (s.perform plan).view c = t

variable {e : FSError}

theorem agrees_error {outcome : Except FSError Plan} (h : outcome = .error e)
    (hcls : e.cls = some cls) :
    Agrees c s outcome (.error cls) :=
  .inl ⟨e, h, hcls⟩

/-! ## The operations -/

variable {data : Bytes}

theorem files_created {plan : Plan} (hcreate : plan.create = some data)
    (hgarbage : s.nextName ∉ plan.garbage) :
    (s.perform plan).files.get s.nextName = some (edited plan s.nextName data) := by
  rw [files_perform, if_neg hgarbage, created, if_pos rfl, hcreate]
  rfl

theorem openWritable_error (h : s.resolve "open" p = .error e) (truncate : Bool)
    (write : Bytes → Bytes) :
    s.openWritable c p truncate write = .error e := by
  rw [openWritable, h]
  rfl

theorem openWritable_refused (h : Tree.find (s.view c) p = .ok o) (truncate : Bool)
    (write : Bytes → Bytes) :
    (o = .dir → s.openWritable c p truncate write = .error (.path "open" p .isDir)) ∧
      ((∃ target, o = .symlink target) →
        s.openWritable c p truncate write = .error (.path "open" p .invalid)) := by
  obtain ⟨n, hresolve, -, hobj, -⟩ := resolve_ok c "open" h
  rw [openWritable, hresolve]
  simp only [bind, Except.bind]
  have hkind := kind_of_nodeObj hobj
  constructor
  · rintro rfl
    rw [hkind]
    rfl
  · rintro ⟨target, rfl⟩
    rw [hkind]
    rfl

variable {n : ViewNode}
theorem childNames_eq_nil (hn : s.lookup p = some n) (hdir : n.kind = .dir) :
    s.childNames p n = [] ↔ Tree.Empty (s.view c) p := by
  rw [eq_nil_iff_forall_not_mem]
  refine forall_congr' fun name => ?_
  rw [mem_childNames hn hdir, not_not, view_eq_lookup, Option.map_eq_none_iff]

theorem full_iff (hn : s.lookup p = some n) :
    n.kind = .dir ∧ ¬ Tree.Empty (s.view c) p ↔ n.kind = .dir ∧ ¬ s.childNames p n = [] :=
  and_congr_right fun hdir => (childNames_eq_nil hn hdir).symm.not

theorem renameTarget_agrees {old new : Path} {src : ViewNode} :
    s.renameTarget old new src =
      (Tree.renameTarget (s.view c) new (s.nodeObj c src)).mapError (.link old new) := by
  rw [renameTarget, Tree.renameTarget, view_eq_lookup]
  cases hl : s.lookup new with
  | none => rfl
  | some dst =>
    simp only [Option.map_some, ne_eq, nodeObj_eq_dir, full_iff hl]
    split_ifs <;> rfl

section

variable (hs : s.Sound)
include hs

theorem writeFile_agrees (hp : p ≠ []) (data : Bytes) (mode : Nat) :
    Agrees c s (s.writeFile p data mode) (Tree.writeFile (s.view c) p data mode) := by
  rw [writeFile, Tree.writeFile, if_neg hp, resolveParent_eq c "write" hp]
  cases hparent : Tree.parent (s.view c) p with
  | error => exact agrees_error rfl rfl
  | ok u =>
    have hparents := parents_of_ok hparent
    -- nothing or a file is there
    have hwrite : ∀ m, normalizeFileMode m = m → s.kindAt p ≠ some .dir →
        Agrees c s (.ok (s.replacePlan p data m ((s.lookup p).bind ViewNode.file)))
          (.ok (Function.update (s.view c) p (some (.file m data)))) := by
      intro m hm hfree
      have hgarbage : ∀ name, name ∈ ((s.lookup p).bind ViewNode.file).toList →
          s.FileIn (At p) name := by
        intro name hname
        rw [Option.mem_toList, Option.bind_eq_some_iff] at hname
        obtain ⟨n, hn, hfile⟩ := hname
        exact ⟨p, n.mode, prefix_refl p, entry_of_file hn hp hfile⟩
      have hnew : s.nextName ∉ ((s.lookup p).bind ViewNode.file).toList := by
        intro hname
        obtain ⟨q, mode', -, hget⟩ := hgarbage _ hname
        exact hs.present q mode' _ hget (hs.fresh _ le_rfl)
      have hputs : s.Puts p (.file m s.nextName)
          (s.replacePlan p data m ((s.lookup p).bind ViewNode.file)) := by
        refine ⟨hp, hparents, hfree, rfl, ?_, hgarbage, ?_, hm⟩
        · intro mode' name heq
          cases heq
          exact ⟨hnew, .inl ⟨by simp [replacePlan], rfl⟩⟩
        · intro name write hplan
          cases hplan
      refine ⟨_, rfl, rfl, (hputs.fits hs).sound hs, ?_⟩
      rw [hputs.view hs (by simp), entryObj, files_created rfl hnew]
      rfl
    rw [view_eq_lookup]
    cases hl : s.lookup p with
    | none =>
      rw [hl] at hwrite
      have hkind : s.kindAt p ≠ some .dir := by
        rw [kindAt, hl]
        simp
      by_cases hm : mode = 0
      · simp only [hm]
        exact hwrite modeFile rfl hkind
      · simp only [hm]
        exact hwrite _ (normalizeFileMode_idem mode) hkind
    | some n =>
      rw [hl] at hwrite
      simp only [Option.map_some, nodeObj]
      cases hk : n.kind with
      | dir | symlink => exact agrees_error rfl rfl
      | file =>
        have hkind : s.kindAt p ≠ some .dir := by
          rw [kindAt, hl]
          simp [hk]
        by_cases hm : mode = 0
        · simp only [hm, if_true]
          have hnormal := hs.normal_mode hl hk
          rw [Option.getD_some, hnormal]
          exact hwrite n.mode hnormal hkind
        · simp only [hm]
          exact hwrite _ (normalizeFileMode_idem mode) hkind

/-- What `OpenWritable` is going to do with a file. -/
theorem openWritable_file {mode : Nat} (h : Tree.find (s.view c) p = .ok (.file mode data))
    (truncate : Bool) (write : Bytes → Bytes) :
    ∃ plan, s.openWritable c p truncate write = .ok plan ∧ plan.failure = none ∧
      (s.perform plan).Sound ∧ (s.perform plan).view c = Function.update (s.view c) p
        (some (.file mode (write (if truncate then [] else data)))) := by
  obtain ⟨n, hresolve, hl, hobj, hparents⟩ := resolve_ok c "open" h
  have hk : n.kind = .file := kind_of_nodeObj hobj
  have hp : p ≠ [] := by
    rintro rfl
    cases hl
    cases hk
  rw [nodeObj, hk] at hobj
  rw [openWritable, hresolve]
  simp only [bind, Except.bind, hk]
  cases hfile : n.file with
  | some name =>
    rw [hfile] at hobj
    obtain ⟨rfl, rfl⟩ := Obj.file.inj hobj
    have hentry := entry_of_file hl hp hfile
    exact ⟨_, rfl, rfl, (fits_edit hs hentry _).sound hs, view_edit hs hentry _⟩
  | none =>
    rw [hfile] at hobj
    obtain ⟨rfl, rfl⟩ := Obj.file.inj hobj
    refine ⟨_, rfl, rfl, ?_⟩
    have hputs : s.Puts p (.file n.mode s.nextName)
        { create := some (if truncate then [] else c.fetch n.hash),
          set := [(p, some (.file n.mode s.nextName))], edit := some (s.nextName, write) } := by
      refine ⟨hp, hparents, ?_, rfl, ?_, by simp, ?_, hs.normal_mode hl hk⟩
      · rw [kindAt, hl]
        simp [hk]
      · intro mode' name heq
        cases heq
        exact ⟨by simp, .inl ⟨by simp, rfl⟩⟩
      · intro name write' hplan
        cases hplan
        exact .inl ⟨by simp, rfl⟩
    refine ⟨(hputs.fits hs).sound hs, ?_⟩
    rw [hputs.view hs (by simp), entryObj, files_created rfl (by simp)]
    simp [edited]

theorem openWritable_agrees (truncate : Bool) (write : Bytes → Bytes) :
    Agrees c s (s.openWritable c p truncate write)
      (Tree.rewrite (s.view c) p fun data => .ok (write (if truncate then [] else data))) := by
  rw [Tree.rewrite]
  cases hfind : Tree.find (s.view c) p with
  | error => exact agrees_error (openWritable_error (resolve_error c "open" hfind) _ _) rfl
  | ok o =>
    obtain ⟨hdir, hsymlink⟩ := openWritable_refused hfind truncate write
    cases o with
    | dir => exact agrees_error (hdir rfl) rfl
    | symlink target => exact agrees_error (hsymlink ⟨target, rfl⟩) rfl
    | file => exact openWritable_file hs hfind truncate write

theorem truncate_agrees (size : Int) :
    Agrees c s (s.truncate c p size) (Tree.rewrite (s.view c) p (Tree.resize size)) := by
  rw [truncate, Tree.rewrite]
  cases hfind : Tree.find (s.view c) p with
  | error =>
    rw [openWritable_error (resolve_error c "open" hfind)]
    exact agrees_error rfl rfl
  | ok o =>
    obtain ⟨hdir, hsymlink⟩ := openWritable_refused hfind (size = 0)
      fun data => if size < 0 then data else resize size.toNat data
    cases o with
    | dir =>
      rw [hdir rfl]
      exact agrees_error rfl rfl
    | symlink target =>
      rw [hsymlink ⟨target, rfl⟩]
      exact agrees_error rfl rfl
    | file mode data =>
      obtain ⟨plan, hplan, -, hsound, hview⟩ := openWritable_file hs hfind (size = 0)
        fun data => if size < 0 then data else resize size.toNat data
      have hshown : s.view c p = some (.file mode data) := by
        obtain ⟨n, -, hl, hobj, -⟩ := resolve_ok c "open" hfind
        rw [view_eq_lookup, hl, Option.map_some, hobj]
      rw [hplan]
      simp only [Tree.resize]
      by_cases hneg : size < 0
      · -- the content was copied up, and the size is refused
        have hzero : ¬ size = 0 := by omega
        simp only [if_pos hneg]
        refine .inr ⟨_, .system .invalid, rfl, rfl, rfl, hsound, ?_⟩
        refine hview.trans ?_
        simp only [hneg, hzero, if_true, decide_false, Bool.false_eq_true, if_false]
        rw [← hshown, Function.update_eq_self]
      · simp only [if_neg hneg]
        refine ⟨_, rfl, rfl, hsound, hview.trans ?_⟩
        by_cases hzero : size = 0
        · subst hzero
          simp [resize]
        · simp [hneg, hzero, resize]

theorem make_agrees (hp : p ≠ []) {op : String} {e : LocalEntry}
    (he : ∀ files, entryObj c files e = some o) (hnormal : NormalEntry e)
    (hname : ∀ mode name, e ≠ .file mode name)
    (hshut : e = .dir false → ∀ b, s.base.lookup p = some b → b.kind ≠ .dir) :
    Agrees c s
      (do s.resolveParent op p
          if (s.lookup p).isSome then .error (.path op p .exist) else .ok { set := [(p, some e)] })
      (Tree.make (s.view c) p o) := by
  rw [Tree.make, if_neg hp, resolveParent_eq c op hp]
  cases hparent : Tree.parent (s.view c) p with
  | error => exact agrees_error rfl rfl
  | ok =>
    rw [view_eq_lookup]
    cases hl : s.lookup p with
    | some n => exact agrees_error rfl rfl
    | none =>
      have hputs : s.Puts p e { set := [(p, some e)] } := by
        refine ⟨hp, parents_of_ok hparent, ?_, rfl, ?_, by simp, ?_, hnormal⟩
        · rw [kindAt, hl]
          simp
        · intro mode name heq
          exact absurd heq (hname mode name)
        · intro name write hplan
          cases hplan
      refine ⟨_, rfl, rfl, (hputs.fits hs).sound hs, ?_⟩
      rw [hputs.view hs hshut, he]

theorem mkdir_agrees (hp : p ≠ []) : Agrees c s (s.mkdir p) (Tree.make (s.view c) p .dir) := by
  refine make_agrees hs hp (fun _ => rfl) trivial (by simp) fun heq b hb => ?_
  rw [hb] at heq
  simpa using heq

theorem symlink_agrees (hp : p ≠ []) (target : String) :
    Agrees c s (s.symlink target p) (Tree.make (s.view c) p (.symlink target)) :=
  make_agrees hs hp (fun _ => rfl) trivial (by simp) (by simp)

theorem chmod_agrees (mode : Nat) : Agrees c s (s.chmod p mode) (Tree.chmod (s.view c) p mode) := by
  rw [chmod, Tree.chmod]
  cases hfind : Tree.find (s.view c) p with
  | error =>
    rw [resolve_error c "chmod" hfind]
    exact agrees_error rfl rfl
  | ok o =>
    obtain ⟨n, hresolve, hl, hobj, hparents⟩ := resolve_ok c "chmod" hfind
    have hkind := kind_of_nodeObj hobj
    rw [hresolve]
    simp only [bind, Except.bind]
    cases o with
    | dir | symlink =>
      rw [if_pos (.inl (by rw [hkind]; simp [Obj.kind]))]
      exact ⟨_, rfl, rfl, hs, rfl⟩
    | file oldMode data =>
      have hk : n.kind = .file := hkind
      have hp : p ≠ [] := by
        rintro rfl
        cases hl
        cases hk
      have hfree : s.kindAt p ≠ some .dir := by
        rw [kindAt, hl]
        simp [hk]
      have hshown : s.view c p = some (.file oldMode data) := by
        rw [view_eq_lookup, hl, Option.map_some, hobj]
      rw [nodeObj, hk] at hobj
      obtain ⟨hmode, hdata⟩ := Obj.file.inj hobj
      by_cases hsame : normalizeFileMode mode = n.mode
      · rw [if_pos (.inr hsame)]
        refine ⟨_, rfl, rfl, hs, ?_⟩
        rw [hsame, hmode, ← hshown, Function.update_eq_self]
        rfl
      · rw [if_neg (by simp [hk, hsame])]
        cases hfile : n.file with
        | some name =>
          rw [hfile] at hdata
          have hentry := entry_of_file hl hp hfile
          have hin : s.FileIn (At p) name := ⟨p, n.mode, prefix_refl p, hentry⟩
          have hputs : s.Puts p (.file (normalizeFileMode mode) name)
              { set := [(p, some (.file (normalizeFileMode mode) name))] } := by
            refine ⟨hp, hparents, hfree, rfl, ?_, by simp, by simp, normalizeFileMode_idem mode⟩
            intro mode' name' heq
            cases heq
            exact ⟨by simp, .inr hin⟩
          refine ⟨_, rfl, rfl, (hputs.fits hs).sound hs, ?_⟩
          rw [hputs.view hs (by simp), ← hdata]
          rfl
        | none =>
          rw [hfile] at hdata
          have hputs : s.Puts p (.ref (normalizeFileMode mode) n.hash n.size)
              { set := [(p, some (.ref (normalizeFileMode mode) n.hash n.size))] } :=
            ⟨hp, hparents, hfree, rfl, by simp, by simp, by simp, normalizeFileMode_idem mode⟩
          refine ⟨_, rfl, rfl, (hputs.fits hs).sound hs, ?_⟩
          rw [hputs.view hs (by simp), ← hdata]
          rfl

theorem Sound.leaf (hn : s.lookup p = some n) (hleaf : n.kind = .dir → Tree.Empty (s.view c) p)
    (q : Path) (hq : At p q) (hne : q ≠ p) : s.view c q = none := by
  by_cases hdir : n.kind = .dir
  · obtain ⟨r, rfl⟩ := hq
    cases r with
    | nil => simp at hne
    | cons name r =>
      have hnone := hleaf hdir name
      by_cases hr : r = []
      · rw [hr]
        exact hnone
      · refine hs.view_under (d := p ++ [name]) ?_ ⟨r, by simp⟩ (by simpa using hr)
        rw [(kindAt_eq_none c).mpr hnone]
        simp
  · refine hs.view_under ?_ hq hne.symm
    rw [kindAt, hn]
    simpa using hdir

theorem remove_agrees (hp : p ≠ []) : Agrees c s (s.remove p) (Tree.remove (s.view c) p) := by
  rw [remove, Tree.remove, if_neg hp, if_neg hp, resolveParent_eq c "remove" hp]
  cases hparent : Tree.parent (s.view c) p with
  | error => exact agrees_error rfl rfl
  | ok =>
    rw [view_eq_lookup]
    cases hl : s.lookup p with
    | none => exact agrees_error rfl rfl
    | some n =>
      simp only [Option.map_some, ne_eq, nodeObj_eq_dir, full_iff hl]
      split_ifs with hfull
      · exact agrees_error rfl rfl
      · have hleaf : n.kind = .dir → Tree.Empty (s.view c) p := by
          intro hk
          by_contra hne
          exact hfull ((full_iff hl).mp ⟨hk, hne⟩)
        exact ⟨_, rfl, rfl, (fits_remove hs hp).sound hs, view_remove hs hp (hs.leaf hl hleaf)⟩

theorem rename_agrees {old new : Path} (hold : old ≠ []) (hnew : new ≠ []) :
    Agrees c s (s.rename old new) (Tree.rename (s.view c) old new) := by
  have hroot : ¬ (old = [] ∨ new = []) := by simp [hold, hnew]
  rw [rename, Tree.rename, if_neg hroot, if_neg hroot, resolveParent_eq c "rename" hold,
    resolveParent_eq c "rename" hnew]
  cases hparent : Tree.parent (s.view c) old with
  | error => exact agrees_error rfl rfl
  | ok u =>
    cases hparent' : Tree.parent (s.view c) new with
    | error => exact agrees_error rfl rfl
    | ok u' =>
      rw [view_eq_lookup]
      cases hl : s.lookup old with
      | none => exact agrees_error rfl rfl
      | some src =>
        simp only [Option.map_some]
        by_cases heq : old = new
        · rw [if_pos heq, if_pos heq]
          exact ⟨_, rfl, rfl, hs, rfl⟩
        rw [if_neg heq, if_neg heq]
        have hne : new ≠ old := fun h => heq h.symm
        by_cases hdown : old <+: new
        · rw [if_pos (isUnder_iff.mpr ⟨hdown, hne⟩), if_pos <| isPrefixOf_iff_prefix.mpr hdown]
          exact agrees_error rfl rfl
        rw [if_neg fun h => hdown (isUnder_iff.mp h).1,
          if_neg fun h => hdown <| isPrefixOf_iff_prefix.mp h]
        by_cases hup : new <+: old
        · rw [if_pos (isUnder_iff.mpr ⟨hup, heq⟩), if_pos <| isPrefixOf_iff_prefix.mpr hup]
          exact agrees_error rfl rfl
        rw [if_neg fun h => hup (isUnder_iff.mp h).1,
          if_neg fun h => hup <| isPrefixOf_iff_prefix.mp h, renameTarget_agrees]
        cases Tree.renameTarget (s.view c) new (s.nodeObj c src) with
        | error => exact agrees_error rfl rfl
        | ok u'' =>
          have hbeside : Beside old new := ⟨hold, hnew, hdown, hup⟩
          have hparents := parents_of_ok hparent'
          refine ⟨_, rfl, rfl, (fits_rename hl hs hbeside hparents).sound hs, funext fun q => ?_⟩
          exact view_rename hl hs hbeside hparents q

end

end FS

/-- The operation would not replace the root. -/
def Op.BelowRoot : Op → Prop
  | .writeFile p _ _ => p ≠ []
  | .openWritable _ _ _ => True
  | .truncate _ _ => True
  | .mkdir p => p ≠ []
  | .symlink _ p => p ≠ []
  | .chmod _ _ => True
  | .remove p => p ≠ []
  | .rename old new => old ≠ [] ∧ new ≠ []

namespace FS

variable {c : Content} {s : FS} {p q : Path} {op : Op}

theorem plan_agrees (hs : s.Sound) (hop : op.BelowRoot) :
    Agrees c s (s.plan c op) (Tree.exec (s.view c) op) := by
  cases op with
  | writeFile p data mode => exact writeFile_agrees hs hop data mode
  | openWritable p truncate write => exact openWritable_agrees hs truncate write
  | truncate p size => exact truncate_agrees hs size
  | mkdir => exact mkdir_agrees hs hop
  | symlink target => exact symlink_agrees hs hop target
  | chmod p mode => exact chmod_agrees hs mode
  | remove => exact remove_agrees hs hop
  | rename => exact rename_agrees hs hop.1 hop.2

/-- **One operation**: the same error class or success, the same tree afterwards, and a sound
layer. -/
theorem exec_agrees (hs : s.Sound) (hop : op.BelowRoot) :
    (s.exec c op).1.Sound ∧ (s.exec c op).1.view c = Tree.step (s.view c) op ∧
      (s.exec c op).2.map FSError.cls = (Tree.failure (s.view c) op).map some := by
  have h := plan_agrees (c := c) hs hop
  rw [exec, Tree.step, Tree.failure]
  cases hwant : Tree.exec (s.view c) op with
  | error =>
    rw [hwant] at h
    rcases h with ⟨e, he, hcls⟩ | ⟨plan, e, hplan, hfail, hcls, hsound, hview⟩
    · rw [he]
      exact ⟨hs, rfl, congrArg some hcls⟩
    · rw [hplan]
      refine ⟨hsound, hview, ?_⟩
      dsimp only
      rw [hfail]
      exact congrArg some hcls
  | ok =>
    rw [hwant] at h
    obtain ⟨plan, hplan, hfail, hsound, hview⟩ := h
    rw [hplan]
    refine ⟨hsound, hview, ?_⟩
    dsimp only
    rw [hfail]
    rfl

variable (base : Manifest)

theorem sound_create : (create base).Sound := by
  refine ⟨rfl, ?_, ?_, ?_, fun _ _ => rfl, ?_⟩
  · intro p e he
    cases he
  · intro p mode name he
    cases he
  · intro p q mode mode' name he
    cases he
  · intro p e he
    cases he

theorem view_create : (create base).view c = Tree.ofBase c base := by
  funext p
  rw [Tree.ofBase]
  by_cases hp : p = []
  · obtain ⟨e, he, hkind⟩ := base.root
    have hlookup : base.lookup [] = some e := he
    rw [hp, hlookup, Option.map_some, baseObj, hkind]
    rfl
  · have hvisible : (create base).baseVisible p = true := by
      rw [baseVisible_iff]
      exact fun d _ _ _ => .inl rfl
    rw [view_of_none hp rfl, if_pos hvisible]
    rfl

/-- The workspace after some operations. -/
def after (c : Content) (base : Manifest) (ops : List Op) : FS :=
  Machine.run (fun s op => (s.exec c op).1) (create base) ops

/-! ## Reading -/

theorem mode_nodeObj (hn : s.lookup p = some n) : n.mode = (s.nodeObj c n).mode := by
  rcases lookup_cases hn with ⟨-, rfl⟩ | ⟨e, hbase, rfl⟩ | ⟨e, -, hlocal⟩
  · rfl
  · have hmode := s.base.modes p e hbase
    rw [nodeObj]
    cases hk : e.kind with
    | file => simp only [baseNode, hk, Obj.mode]
    | _ =>
      rw [hk] at hmode
      simp only [baseNode, hk]
      exact hmode.symm
  · cases e with
    | whiteout => cases hlocal
    | _ =>
      cases hlocal
      rfl

/-- The attributes are those of an object. -/
structure Describes (a : Attr) (o : Obj) : Prop where
  kind : a.kind = o.kind
  mode : a.mode = o.mode
  target : ∀ target, o = .symlink target → a.target = target

theorem describes_attr (hn : s.lookup p = some n) :
    Describes (attr n) (s.nodeObj c n) where
  kind := (s.kind_nodeObj c n).symm
  mode := mode_nodeObj hn
  target target h := by
    rw [nodeObj] at h
    split at h <;> cases h
    rfl

/-- The workspace reads as a plain file system: `Stat`, `ReadDir` and `ReadFile` fail with its
errors or return what it holds. -/
structure Shows (c : Content) (s : FS) (t : Tree) : Prop where
  missing : ∀ p cls, t.find p = .error cls → s.stat p = .error (.path "stat" p cls) ∧
    s.readDir p = .error (.path "readdir" p cls) ∧ s.readFile c p = .error (.path "open" p cls)
  stat : ∀ p o, t.find p = .ok o → ∃ a, s.stat p = .ok a ∧ Describes a o
  readDir : ∀ p, t.find p = .ok .dir → ∃ l, s.readDir p = .ok l ∧
    (l.map Prod.fst).Pairwise (· < ·) ∧ (∀ name, name ∈ l.map Prod.fst ↔ t (p ++ [name]) ≠ none) ∧
    ∀ name a, (name, a) ∈ l → ∃ o, t (p ++ [name]) = some o ∧ Describes a o
  notDir : ∀ p o, t.find p = .ok o → o ≠ .dir → s.readDir p = .error (.path "readdir" p .notDir)
  readFile : ∀ p mode data, t.find p = .ok (.file mode data) → s.readFile c p = .ok data
  isDir : ∀ p, t.find p = .ok .dir → s.readFile c p = .error (.path "open" p .isDir)
  notFile : ∀ p target, t.find p = .ok (.symlink target) →
    s.readFile c p = .error (.path "open" p .invalid)

theorem readDir_dir (hresolve : s.resolve "readdir" p = .ok n)
    (hn : s.lookup p = some n) (hdir : n.kind = .dir) : ∃ l, s.readDir p = .ok l ∧
    (l.map Prod.fst).Pairwise (· < ·) ∧
    (∀ name, name ∈ l.map Prod.fst ↔ s.view c (p ++ [name]) ≠ none) ∧
    ∀ name a, (name, a) ∈ l → ∃ o, s.view c (p ++ [name]) = some o ∧ Describes a o := by
  let row : String → Option (String × Attr) := fun name =>
    (s.lookup (p ++ [name])).map fun child => (name, attr child)
  have hrow : ∀ {name : String} {x : String × Attr}, row name = some x → x.1 = name := by
    intro name x hx
    obtain ⟨child, -, rfl⟩ := Option.map_eq_some_iff.mp hx
    rfl
  refine ⟨(s.childNames p n).filterMap row, ?_, ?_, fun name => ?_, fun name a hmem => ?_⟩
  · rw [readDir, hresolve]
    simp only [bind, Except.bind, hdir]
    rfl
  · -- the names are listed in their order, each of them once
    have hlt : (s.childNames p n).Pairwise (· < ·) :=
      ((pairwise_childNames s p n).and (nodup_childNames s p n)).imp fun h => lt_of_le_of_ne h.1 h.2
    rw [pairwise_map]
    refine List.Pairwise.filterMap row ?_ hlt
    intro a b hab x hx y hy
    rw [hrow hx, hrow hy]
    exact hab
  · rw [mem_map, view_eq_lookup, ne_eq, Option.map_eq_none_iff]
    constructor
    · rintro ⟨x, hx, rfl⟩
      obtain ⟨name, hname, hx⟩ := mem_filterMap.mp hx
      rw [hrow hx]
      exact (mem_childNames hn hdir).mp hname
    · intro hshown
      obtain ⟨child, hchild⟩ := Option.ne_none_iff_exists'.mp hshown
      refine ⟨(name, attr child), mem_filterMap.mpr ⟨name, ?_, ?_⟩, rfl⟩
      · exact (mem_childNames hn hdir).mpr hshown
      · simp only [row, hchild, Option.map_some]
  · obtain ⟨name', -, hx⟩ := mem_filterMap.mp hmem
    obtain ⟨child, hchild, heq⟩ := Option.map_eq_some_iff.mp hx
    cases heq
    exact ⟨s.nodeObj c child, by rw [view_eq_lookup, hchild]; rfl, describes_attr hchild⟩

/-- **Reading** shows the view. -/
theorem Sound.shows (hs : s.Sound) (c : Content) : Shows c s (s.view c) := by
  constructor
  case missing =>
    intro p cls h
    refine ⟨?_, ?_, ?_⟩
    · rw [stat, resolve_error c "stat" h]
      rfl
    · rw [readDir, resolve_error c "readdir" h]
      rfl
    · rw [readFile, resolve_error c "open" h]
      rfl
  case stat =>
    intro p o h
    obtain ⟨n, hresolve, hn, rfl, -⟩ := resolve_ok c "stat" h
    exact ⟨attr n, by rw [stat, hresolve]; rfl, describes_attr hn⟩
  case readDir =>
    intro p h
    obtain ⟨n, hresolve, hn, hobj, -⟩ := resolve_ok c "readdir" h
    have hdir : n.kind = .dir := kind_of_nodeObj hobj
    exact readDir_dir hresolve hn hdir
  case notDir =>
    intro p o h hne
    obtain ⟨n, hresolve, hn, rfl, -⟩ := resolve_ok c "readdir" h
    have hdir : n.kind ≠ .dir := nodeObj_eq_dir.not.mp hne
    rw [readDir, hresolve]
    simp only [bind, Except.bind, hdir, ne_eq, not_false_eq_true, if_true]
  case readFile =>
    intro p mode data h
    obtain ⟨n, hresolve, hn, hobj, -⟩ := resolve_ok c "open" h
    have hk : n.kind = .file := kind_of_nodeObj hobj
    have hp : p ≠ [] := by
      rintro rfl
      cases hn
      cases hk
    rw [nodeObj, hk] at hobj
    obtain ⟨-, hdata⟩ := Obj.file.inj hobj
    rw [readFile, hresolve]
    simp only [bind, Except.bind, hk]
    cases hfile : n.file with
    | none =>
      rw [hfile] at hdata
      rw [← hdata]
    | some name =>
      rw [hfile] at hdata
      obtain ⟨data', hdata'⟩ := Option.ne_none_iff_exists'.mp
        (hs.present p n.mode name (entry_of_file hn hp hfile))
      simp only [hdata', Option.getD_some] at hdata ⊢
      rw [hdata]
  case isDir =>
    intro p h
    obtain ⟨n, hresolve, hn, hobj, -⟩ := resolve_ok c "open" h
    have hk : n.kind = .dir := kind_of_nodeObj hobj
    rw [readFile, hresolve]
    simp only [bind, Except.bind, hk]
  case notFile =>
    intro p target h
    obtain ⟨n, hresolve, -, hobj, -⟩ := resolve_ok c "open" h
    have hk : n.kind = .symlink := kind_of_nodeObj hobj
    rw [readFile, hresolve]
    simp only [bind, Except.bind, hk]

/-! ## Runs -/

theorem exec_root (hop : ¬ op.BelowRoot) (t : Tree) :
    (∃ e, s.exec c op = (s, some e) ∧ e.cls = some .invalid) ∧ ∃ cls, t.exec op = .error cls := by
  cases op with
  | writeFile | mkdir | symlink | remove =>
    rw [Op.BelowRoot, not_not] at hop
    subst hop
    exact ⟨⟨_, rfl, rfl⟩, _, rfl⟩
  | openWritable | truncate | chmod => exact absurd trivial hop
  | rename old new =>
    have hroot : old = [] ∨ new = [] := by
      by_contra h
      rw [not_or] at h
      exact hop h
    have hplan : s.plan c (.rename old new) = .error (.link old new .invalid) := by
      rw [plan, rename, if_pos hroot]
    refine ⟨⟨_, by rw [exec, hplan], rfl⟩, .busy, ?_⟩
    rw [Tree.exec, Tree.rename, if_pos hroot]

/-- Every operation keeps the layer sound, and the view follows the plain file system. -/
theorem exec_step (hs : s.Sound) (op : Op) :
    (s.exec c op).1.Sound ∧ (s.exec c op).1.view c = Tree.step (s.view c) op := by
  by_cases hop : op.BelowRoot
  · obtain ⟨hsound, hview, -⟩ := exec_agrees hs hop
    exact ⟨hsound, hview⟩
  · obtain ⟨⟨e, he, -⟩, cls, hcls⟩ := exec_root hop (s.view c)
    rw [he, Tree.step, hcls]
    exact ⟨hs, rfl⟩

theorem after_agrees (c : Content) (base : Manifest) (ops : List Op) :
    (after c base ops).Sound ∧ (after c base ops).view c = Tree.after c base ops := by
  induction ops using List.reverseRecOn with
  | nil => exact ⟨sound_create base, view_create base⟩
  | append_singleton ops op ih =>
    obtain ⟨hs, hview⟩ := ih
    obtain ⟨hsound, hstep⟩ := exec_step hs op
    rw [after, Tree.after, Machine.run_append, Machine.run_append]
    refine ⟨hsound, hstep.trans ?_⟩
    rw [hview]
    rfl

/-- **A workspace refines a plain file system.** After any operations, the workspace over a base
reads as the plain file system that started with the base's content does. The next operation
succeeds in both or fails in both with the same class of error; one that would replace the root
fails in both, in the workspace as invalid. -/
theorem overlay_refines_posix (c : Content) (base : Manifest) (ops : List Op) :
    Shows c (after c base ops) (Tree.after c base ops) ∧
      ∀ op : Op,
        (op.BelowRoot → ((after c base ops).exec c op).2.map FSError.cls =
          ((Tree.after c base ops).failure op).map some) ∧
        (¬ op.BelowRoot → ((after c base ops).exec c op).2.map FSError.cls = some (some .invalid) ∧
          (Tree.after c base ops).failure op ≠ none) := by
  obtain ⟨hs, hview⟩ := after_agrees c base ops
  rw [← hview]
  refine ⟨hs.shows c, fun op => ⟨fun hop => (exec_agrees hs hop).2.2, fun hop => ?_⟩⟩
  obtain ⟨⟨e, he, hcls⟩, cls, hfail⟩ :=
    exec_root hop ((after c base ops).view c)
  refine ⟨by rw [he]; exact congrArg some hcls, ?_⟩
  rw [Tree.failure, hfail]
  simp

/-- Contents that are all empty. -/
def emptyContent : Content := ⟨fun _ => [], fun _ => ""⟩

theorem overlay_refines_posix_movedFolder :
    Shows emptyContent
      (after emptyContent (.empty "c1") [.mkdir ["d"], .writeFile ["d", "f"] [1] 0, .rename ["d"] ["e"]])
      (Tree.after emptyContent (.empty "c1")
        [.mkdir ["d"], .writeFile ["d", "f"] [1] 0, .rename ["d"] ["e"]]) ∧
    ((after emptyContent (.empty "c1")
      [.mkdir ["d"], .writeFile ["d", "f"] [1] 0, .rename ["d"] ["e"]]).readFile emptyContent
        ["e", "f"]).toOption = some [1] := by
  exact ⟨(overlay_refines_posix emptyContent (.empty "c1") _).1, by decide +kernel⟩

/-- **The root is refused as invalid**: where POSIX has `EEXIST` for a directory that is there, the
workspace returns `fs.ErrInvalid`. -/
theorem mkdir_root_invalid :
    ((after emptyContent (.empty "c1") []).exec emptyContent (.mkdir [])).2 =
      some (.path "mkdir" [] .invalid) ∧
    (Tree.after emptyContent (.empty "c1") []).failure (.mkdir []) = some .exist := by
  exact ⟨rfl, rfl⟩

end FS

end GitSlice.LazyFS
