import GitSlice.Library.Lists
import GitSlice.TreeStore.Listing

/-! # Edits of files
An edit list that writes and deletes files, each path once, may still have paths that lie under one
another: a file is deleted where a folder is to be, or a folder's files are deleted where a file is
to be. `FilesAfter` says which files such a list leaves. It holds for a batch whatever the order,
since a batch edits the entries of a node before those below it (`filesAfter_applyBatchTo`), and for
edits one after the other when no path comes after one that lies under it (`filesAfter_sequential`).
Both succeed when every file in the way of a write is deleted by the list (`Unblocked`). Whatever
the paths, every file afterwards was there before or is written at its path
(`filesFrom_applyEdits`). -/

namespace GitSlice

open Node List GitSlice.Except

/-- Writes and deletes of files, each path once. -/
structure FileSet (edits : List BatchEdit) : Prop where
  nodup : (edits.map BatchEdit.parts).Nodup
  noDirs : ∀ e ∈ edits, e.op ≠ .mkdir
  nonroot : ∀ e ∈ edits, e.parts ≠ []

/-- The files that writes and deletes of files leave. -/
structure FilesAfter (n : Node) (edits : List BatchEdit) (r : Node) : Prop where
  upserted : ∀ f p, ⟨.upsert f, p⟩ ∈ edits → r.fileAt p = some f
  dropped : ∀ q, (∀ f, ⟨.upsert f, q⟩ ∉ edits) → (∃ e ∈ edits, e.parts <+: q) → r.fileAt q = none
  kept : ∀ q, (∀ e ∈ edits, ¬ e.parts <+: q) → r.fileAt q = n.fileAt q

/-- No file is in the way of a write once the deletes are done. -/
def Unblocked (n : Node) (edits : List BatchEdit) : Prop :=
  ∀ f p, ⟨.upsert f, p⟩ ∈ edits → ∀ q, q <+: p → q ≠ p →
    (∀ g, ⟨.upsert g, q⟩ ∉ edits) ∧ (n.fileAt q = none ∨ ∃ e ∈ edits, e.parts <+: q)

/-- Deletes below an empty node leave it, and so do no edits. -/
theorem FilesAfter.refl {n : Node} {edits : List BatchEdit}
    (h : ∀ e ∈ edits, e.op = .delete ∧ n = .nil) : FilesAfter n edits n where
  upserted _ _ hmem := nomatch (h _ hmem).1
  dropped q _ hex := by
    obtain ⟨e, he, -⟩ := hex
    rw [(h e he).2, fileAt_nil]
  kept _ _ := rfl

theorem FilesAfter.nil (n : Node) : FilesAfter n [] n := .refl fun _ h => nomatch h

theorem FileSet.childEdits {edits : List BatchEdit} (h : FileSet edits) (name : String) :
    FileSet (childEdits edits name) where
  nodup := by
    rw [List.Nodup, pairwise_map]
    exact (pairwise_childEdits h.nodup name).imp fun hne heq => hne (congrArg (name :: ·) heq)
  noDirs e he := h.noDirs ⟨e.op, name :: e.parts⟩ (mem_childEdits.mp he).2
  nonroot e he := (mem_childEdits.mp he).1

variable {e : BatchEdit}

/-! ## A batch -/

variable {acc acc' : Node × Bool} {name : String} {edits : List BatchEdit} {n : Node} {depth : Nat}

theorem exists_applyLeaves (hops : ∀ e ∈ edits, e.op ≠ .mkdir) (acc : Node × Bool) :
    ∃ acc', edits.foldlM applyLeaf acc = .ok acc' := by
  induction edits generalizing acc with
  | nil => exact ⟨acc, rfl⟩
  | cons e edits ih =>
    rw [forall_mem_cons] at hops
    obtain ⟨m, hm⟩ : ∃ m, applyLeaf acc e = .ok m := by
      rw [applyLeaf]
      split
      · split
        · split <;> exact ⟨_, rfl⟩
        · rename_i hop
          exact absurd hop hops.1
        · exact ⟨_, rfl⟩
      · exact ⟨_, rfl⟩
    obtain ⟨acc', hacc'⟩ := ih hops.2 m
    exact ⟨acc', foldlM_cons_ok.mpr ⟨m, hm, hacc'⟩⟩

/-- The second loop succeeds where the batches of the children do and no file is in the way of one
that writes. -/
theorem exists_applyChildren (depth : Nat) {names : List String} (hnames : names.Nodup)
    (hacc : ∀ name ∈ names, acc.1.findEntry name = n.findEntry name)
    (hfile : ∀ name ∈ names, ∀ f, n.findEntry name = some (.file f) →
      ∀ e ∈ childEdits edits name, e.op = .delete)
    (hrec : ∀ name ∈ names, ∃ r, applyBatchTo depth (n.child name) (childEdits edits name) = .ok r) :
    ∃ acc', names.foldlM (applyChild (applyBatchTo depth) edits) acc = .ok acc' := by
  induction names generalizing acc with
  | nil => exact ⟨acc, rfl⟩
  | cons name names ih =>
    obtain ⟨hname, hnodup⟩ := nodup_cons.mp hnames
    have hfind := hacc name mem_cons_self
    obtain ⟨m, hm⟩ : ∃ m, applyChild (applyBatchTo depth) edits acc name = .ok m := by
      obtain ⟨⟨c, emptied⟩, hc⟩ := hrec name mem_cons_self
      have hchild : acc.1.child name = n.child name := child_congr hfind
      rw [applyChild]
      split
      · rename_i f hf
        have hdeletes := hfile name mem_cons_self f (hfind.symm.trans hf)
        refine ⟨acc, if_pos ?_⟩
        exact all_eq_true.mpr fun e he => by simpa using hdeletes e he
      · split_ifs
        · exact ⟨_, rfl⟩
        · rw [hchild, hc]
          cases emptied with
          | true | false => exact ⟨_, rfl⟩
    have hkept : ∀ x ∈ names, m.1.findEntry x = n.findEntry x := fun x hx =>
      (findEntry_applyChild (ne_of_mem_of_not_mem hx hname).symm hm).trans
        (hacc x (mem_cons_of_mem name hx))
    obtain ⟨acc', hacc'⟩ := ih hnodup hkept (fun x hx => hfile x (mem_cons_of_mem name hx))
      fun x hx => hrec x (mem_cons_of_mem name hx)
    exact ⟨acc', foldlM_cons_ok.mpr ⟨m, hm, hacc'⟩⟩

/-- What the second loop of `applyBatch` does to one name: the file stays, and the child gets the
edits below it, if there is something for them to do. -/
theorem child_applyChildren (name : String)
    (h : (childNames edits).foldlM (applyChild (applyBatchTo depth) edits) acc = .ok acc') :
    acc'.1.fileAt [name] = acc.1.fileAt [name] ∧
      ((acc'.1.child name = acc.1.child name ∧
          ∀ e ∈ childEdits edits name, e.op = .delete ∧ acc.1.child name = .nil) ∨
        ∃ emptied, applyBatchTo depth (acc.1.child name) (childEdits edits name) =
          .ok (acc'.1.child name, emptied)) := by
  by_cases hname : name ∈ childNames edits
  · obtain ⟨m, m', hfirst, hm, hlast⟩ := child_turn hname h
    rw [fileAt_congr (getEntry_congr hlast []), ← fileAt_congr (getEntry_congr hfirst []),
      child_congr hlast, ← child_congr hfirst]
    obtain ⟨rfl, hnil, hdeletes⟩ | ⟨c, emptied, hc, -, -, -, hchild, hfile, -⟩ :=
      applyChild_cases hm
    · exact ⟨rfl, .inl ⟨rfl, fun e he => ⟨hdeletes e he, hnil⟩⟩⟩
    · exact ⟨hfile, .inr ⟨emptied, hchild.symm ▸ hc⟩⟩
  · have hsame := findEntry_applyChildren hname h
    have hnone : childEdits edits name = [] := by
      by_contra hne
      exact hname (mem_childNames.mpr hne)
    rw [fileAt_single, fileAt_single, hsame, child_congr hsame, hnone]
    exact ⟨rfl, .inl ⟨rfl, fun _ h => nomatch h⟩⟩

/-- Every file of the second tree is one that the first has at its path, or is written there. -/
def FilesFrom (W : List String → FileEntry → Prop) (n r : Node) : Prop :=
  ∀ q f, r.fileAt q = some f → n.fileAt q = some f ∨ W q f

variable {W : List String → FileEntry → Prop} {p : List String} {op : BatchOp} {r : Node}

theorem filesFrom_of_effect (hchanges : ChangesIn [p] n r) (heffect : op.Effect p n r)
    (hW : ∀ f, op = .upsert f → W p f) : FilesFrom W n r := by
  intro q f hq
  by_cases hle : p <+: q
  · obtain ⟨t, rfl⟩ := hle
    rw [fileAt_eq_some] at hq ⊢
    cases op with
    | upsert g =>
      have hget : r.getEntry p = some (.file g) := heffect
      cases t with
      | nil =>
        rw [append_nil] at hq ⊢
        rw [hget] at hq
        cases hq
        exact .inr (hW f rfl)
      | cons b t =>
        rw [getEntry_append, hget] at hq
        cases hq
    | delete =>
      rw [heffect t] at hq
      cases hq
    | mkdir =>
      rw [getEntry_append] at hq ⊢
      rcases heffect with ⟨c, hc, hc'⟩ | ⟨-, hc'⟩
      · rw [hc'] at hq
        rw [hc]
        exact .inl hq
      · rw [hc'] at hq
        cases t with
        | nil => cases hq
        | cons b t => exact nomatch hq.symm.trans (getEntry_nil_cons b t)
  · rw [hchanges.files q fun x hx => by rwa [mem_singleton.mp hx]] at hq
    exact .inl hq

theorem filesFrom_applyLeaf {e : BatchEdit} (hW : ∀ f, e.op = .upsert f → W e.parts f)
    (h : applyLeaf acc e = .ok acc') : FilesFrom W acc.1 acc'.1 := by
  by_cases hleaf : ∃ name, e.parts = [name]
  · obtain ⟨name, hname⟩ := hleaf
    refine filesFrom_of_effect ?_ (effect_applyLeaf hname h) (hname ▸ hW)
    exact (changesIn_applyLeaf h).mono fun x hx => mem_singleton.mpr
      ((mem_leafPath hx).1.trans hname)
  · rw [applyLeaf] at h
    split at h
    · rename_i name hname
      exact absurd ⟨name, hname⟩ hleaf
    · cases h
      exact fun _ _ hq => .inl hq

/-- **The files of a batch** come from the tree or are written by it, whatever its paths. -/
theorem filesFrom_applyBatchTo {r : Node × Bool} (hW : ∀ f q, ⟨.upsert f, q⟩ ∈ edits → W q f)
    (h : applyBatchTo depth n edits = .ok r) : FilesFrom W n r.1 := by
  induction depth generalizing n edits r W with
  | zero =>
    cases h
    exact fun _ _ hq => .inl hq
  | succ depth ih =>
    obtain ⟨acc, hleaves, hrest⟩ := bind_eq_ok.mp h
    obtain ⟨acc', hchildren, hret⟩ := bind_eq_ok.mp hrest
    cases hret
    have hacc : FilesFrom W n acc.1 := by
      refine foldlM_induction (fun m => FilesFrom W n m.1) (fun m e he m' hm hstep q f hq => ?_)
        (fun _ _ hq => .inl hq) hleaves
      have hwritten : ∀ g, e.op = .upsert g → W e.parts g := fun g hg => hW g _ (hg ▸ he)
      exact (filesFrom_applyLeaf hwritten hstep q f hq).elim (hm q f) .inr
    intro q f hq
    rcases q with - | ⟨name, - | ⟨b, rest⟩⟩
    · cases hq
    · rw [(child_applyChildren name hchildren).1] at hq
      exact hacc _ f hq
    · rw [fileAt_child _ _ (cons_ne_nil b rest)] at hq
      have hchild : FilesFrom (fun q f => W (name :: q) f) (acc.1.child name) (acc'.1.child name) := by
        rcases (child_applyChildren name hchildren).2 with ⟨hsame, -⟩ | ⟨emptied, hc⟩
        · rw [hsame]
          exact fun _ _ hq => .inl hq
        · exact ih (fun g q hmem => hW g _ (mem_childEdits.mp hmem).2) hc
      refine (hchild _ f hq).elim (fun hq => ?_) .inr
      rw [← fileAt_child _ _ (cons_ne_nil b rest)] at hq
      exact hacc _ f hq

section

variable (hset : FileSet edits)
include hset

theorem findEntry_leaves {op : BatchOp}
    (he : ⟨op, [name]⟩ ∈ edits) (h : edits.foldlM applyLeaf acc = .ok acc') :
    acc'.1.findEntry name = match op with
      | .upsert f => some (.file f)
      | _ => none := by
  obtain ⟨m, m', -, hm, hafter⟩ := leaf_turn hset.nodup he h
  rw [hafter]
  have heffect := effect_applyLeaf rfl hm
  cases op with
  | upsert f =>
    have hget : m'.1.getEntry [name] = some (.file f) := heffect
    exact hget
  | delete =>
    have hget := heffect []
    exact hget
  | mkdir => exact absurd rfl (hset.noDirs _ he)

theorem child_leaves (he : e ∈ edits)
    (hparts : e.parts = [name]) (h : edits.foldlM applyLeaf acc = .ok acc') :
    acc'.1.child name = .nil := by
  obtain ⟨op, parts⟩ := e
  subst hparts
  rw [child, findEntry_leaves hset he h]
  cases op <;> rfl

/-- **The files a batch leaves.** -/
theorem filesAfter_applyBatchTo {r : Node × Bool} (hdepth : ∀ e ∈ edits, e.parts.length ≤ depth)
    (h : applyBatchTo depth n edits = .ok r) : FilesAfter n edits r.1 := by
  induction depth generalizing n edits r with
  | zero =>
    have hnil : edits = [] := eq_nil_iff_forall_not_mem.mpr fun e he =>
      hset.nonroot e he (length_eq_zero_iff.mp (Nat.le_zero.mp (hdepth e he)))
    subst hnil
    cases h
    exact .nil n
  | succ depth ih =>
    have hchanges := changesIn_applyBatchTo h
    obtain ⟨acc, hleaves, hrest⟩ := bind_eq_ok.mp h
    obtain ⟨acc', hchildren, hret⟩ := bind_eq_ok.mp hrest
    cases hret
    have hfile name := (child_applyChildren name hchildren).1
    -- below a name, the edits of the child are all there is
    have hchild : ∀ name, FilesAfter (acc.1.child name) (childEdits edits name) (acc'.1.child name) := by
      intro name
      rcases (child_applyChildren name hchildren).2 with ⟨hsame, hdeletes⟩ | ⟨emptied, hc⟩
      · rw [hsame]
        exact .refl hdeletes
      · refine ih (hset.childEdits name) (fun e he => ?_) hc
        exact Nat.le_of_succ_le_succ (hdepth _ (mem_childEdits.mp he).2)
    refine ⟨fun f p hmem => ?_, fun q hno hex => ?_, fun q hq => hchanges.files q fun p hp => ?_⟩
    · rcases p with - | ⟨name, - | ⟨b, rest⟩⟩
      · exact absurd rfl (hset.nonroot _ hmem)
      · rw [hfile, fileAt_single, findEntry_leaves hset hmem hleaves]
      · rw [fileAt_child _ _ (cons_ne_nil _ _)]
        exact (hchild name).upserted f _ (mem_childEdits.mpr ⟨cons_ne_nil _ _, hmem⟩)
    · obtain ⟨⟨op, parts⟩, he, hle⟩ := hex
      rcases q with - | ⟨name, - | ⟨b, rest⟩⟩
      · rfl
      · have hparts : parts = [name] := by
          obtain ⟨a, rest, rfl⟩ := exists_cons_of_ne_nil (hset.nonroot _ he)
          obtain ⟨rfl, hrest⟩ := cons_prefix_cons.mp hle
          rw [prefix_nil.mp hrest]
        subst hparts
        rw [hfile, fileAt_single, findEntry_leaves hset he hleaves]
        cases op with
        | upsert f => exact absurd he (hno f)
        | delete => rfl
        | mkdir => rfl
      · rw [fileAt_child _ _ (cons_ne_nil _ _)]
        have hno' : ∀ f, ⟨.upsert f, b :: rest⟩ ∉ childEdits edits name := fun f hmem =>
          hno f (mem_childEdits.mp hmem).2
        by_cases hbelow : ∃ e ∈ childEdits edits name, e.parts <+: b :: rest
        · exact (hchild name).dropped _ hno' hbelow
        · -- no edit below the name is above the path, so it is the edit of the entry itself
          rw [(hchild name).kept _ fun e hmem hpre => hbelow ⟨e, hmem, hpre⟩]
          have hparts : parts = [name] := by
            obtain ⟨a, rest', rfl⟩ := exists_cons_of_ne_nil (hset.nonroot _ he)
            obtain ⟨rfl, hrest⟩ := cons_prefix_cons.mp hle
            by_contra hne
            have hne' : rest' ≠ [] := fun hnil => hne (by rw [hnil])
            exact hbelow ⟨⟨op, rest'⟩, mem_childEdits.mpr ⟨hne', he⟩, hrest⟩
          rw [child_leaves hset he hparts hleaves, fileAt_nil]
    · obtain ⟨e, he, rfl⟩ := mem_map.mp hp
      exact hq e he

theorem exists_applyBatchTo_of_unblocked (hfree : Unblocked n edits) :
    ∃ r, applyBatchTo depth n edits = .ok r := by
  induction depth generalizing n edits with
  | zero => exact ⟨_, rfl⟩
  | succ depth ih =>
    obtain ⟨acc, hleaves⟩ : ∃ acc, edits.foldlM applyLeaf (n, false) = .ok acc :=
      exists_applyLeaves hset.noDirs _
    have hsame : ∀ {name}, (¬ ∃ e ∈ edits, e.parts = [name]) →
        acc.1.findEntry name = n.findEntry name :=
      fun hleaf => findEntry_applyLeaves (fun e he hparts => hleaf ⟨e, he, hparts⟩) hleaves
    have hrec : ∀ name, Unblocked (acc.1.child name) (childEdits edits name) := by
      intro name f p hmem q hq hne
      obtain ⟨hno, hcase⟩ := hfree f (name :: p) (mem_childEdits.mp hmem).2 (name :: q)
        (cons_prefix_cons.mpr ⟨rfl, hq⟩) fun heq => hne (cons_eq_cons.mp heq).2
      refine ⟨fun g hg => hno g (mem_childEdits.mp hg).2, ?_⟩
      by_cases hleaf : ∃ e ∈ edits, e.parts = [name]
      · obtain ⟨e, he, hparts⟩ := hleaf
        exact .inl (by rw [child_leaves hset he hparts hleaves, fileAt_nil])
      · by_cases hroot : q = []
        · exact .inl (by rw [hroot, fileAt_root])
        · rcases hcase with hnone | ⟨⟨op, parts⟩, he, hle⟩
          · exact .inl (by rw [child_congr (hsame hleaf), ← fileAt_child n name hroot, hnone])
          · -- the edit above the path is below the name
            obtain ⟨a, rest, rfl⟩ := exists_cons_of_ne_nil (hset.nonroot _ he)
            obtain ⟨rfl, hrest⟩ := cons_prefix_cons.mp hle
            have hne' : rest ≠ [] := fun hnil => hleaf ⟨_, he, by rw [hnil]⟩
            exact .inr ⟨⟨op, rest⟩, mem_childEdits.mpr ⟨hne', he⟩, hrest⟩
    have hfile : ∀ name ∈ childNames edits, ∀ f, acc.1.findEntry name = some (.file f) →
        ∀ e ∈ childEdits edits name, e.op = .delete := by
      rintro name - f hf ⟨op, parts⟩ he
      obtain ⟨hne, hmem⟩ := mem_childEdits.mp he
      cases op with
      | delete => rfl
      | mkdir => exact absurd rfl (hset.noDirs _ hmem)
      | upsert g =>
        -- a write below the name: the file there was deleted, or there was none
        exfalso
        obtain ⟨hno, hcase⟩ := hfree g (name :: parts) hmem [name]
          (cons_prefix_cons.mpr ⟨rfl, nil_prefix⟩) fun heq => hne (cons_eq_cons.mp heq).2.symm
        by_cases hleaf : ∃ e ∈ edits, e.parts = [name]
        · obtain ⟨⟨op, parts⟩, he, hparts⟩ := hleaf
          subst hparts
          rw [findEntry_leaves hset he hleaves] at hf
          cases op with
          | upsert g => exact hno g he
          | delete | mkdir => cases hf
        · rcases hcase with hnone | ⟨e, he, hle⟩
          · rw [fileAt_single, ← hsame hleaf, hf] at hnone
            cases hnone
          · exact hleaf ⟨e, he, hle.eq_of_length_le (length_pos_iff.mpr (hset.nonroot _ he))⟩
    obtain ⟨acc', hchildren⟩ := exists_applyChildren depth (nodup_dedup _)
      (fun _ _ => rfl) hfile fun name _ => ih (hset.childEdits name) (hrec name)
    exact ⟨_, bind_eq_ok.mpr ⟨acc, hleaves, bind_eq_ok.mpr ⟨acc', hchildren, rfl⟩⟩⟩

end

/-! ## One edit after the other -/

/-- What `applyEditsSequential` does with an edit that a batch takes. -/
def BatchEdit.apply (n : Node) (e : BatchEdit) : Except TreeError Node :=
  match e.op with
  | .upsert f => n.setFile e.parts f
  | .delete => .ok (n.deletePath e.parts).1
  | .mkdir => n.setDirectory e.parts

/-- No edit comes after one at its path or below it. -/
def AboveFirst (edits : List BatchEdit) : Prop := edits.Pairwise fun d e => ¬ e.parts <+: d.parts

theorem filesAfter_apply (hop : e.op ≠ .mkdir) (hroot : e.parts ≠ []) (h : e.apply n = .ok r) :
    FilesAfter n [e] r := by
  obtain ⟨op, p⟩ := e
  cases op with
  | mkdir => exact absurd rfl hop
  | upsert f =>
    refine ⟨fun g q hmem => ?_, fun q hno hex => ?_, fun q hq => (changesIn_setAt h).files q ?_⟩
    · cases mem_singleton.mp hmem
      have := getEntry_setAt h []
      rw [append_nil] at this
      rw [fileAt, this]
      rfl
    · obtain ⟨d, hd, hle⟩ := hex
      cases mem_singleton.mp hd
      obtain ⟨t, rfl⟩ := hle
      have ht : t ≠ [] := by
        rintro rfl
        rw [append_nil] at hno
        exact hno f (mem_singleton.mpr rfl)
      obtain ⟨b, t, rfl⟩ := exists_cons_of_ne_nil ht
      rw [fileAt, getEntry_setAt h]
      rfl
    · intro d hd
      rw [mem_singleton.mp hd]
      exact hq _ (mem_singleton.mpr rfl)
  | delete =>
    have h : (n.deletePath p).1 = r := Except.ok.inj h
    subst h
    refine ⟨fun g q hmem => ?_, fun q _ hex => ?_,
      fun q hq => (changesIn_deletePath n p).files q ?_⟩
    · cases mem_singleton.mp hmem
    · obtain ⟨d, hd, hle⟩ := hex
      cases mem_singleton.mp hd
      obtain ⟨t, rfl⟩ := hle
      rw [fileAt, getEntry_deletePath n hroot]
    · intro d hd
      rw [mem_singleton.mp hd]
      exact hq _ (mem_singleton.mpr rfl)

theorem FilesAfter.cons {m : Node} (hafter : ∀ d ∈ edits, ¬ d.parts <+: e.parts)
    (h : FilesAfter n [e] m) (h' : FilesAfter m edits r) :
    FilesAfter n (e :: edits) r where
  upserted f p hmem := by
    rcases mem_cons.mp hmem with heq | hmem
    · rw [h'.kept p fun d hd hle => hafter d hd (by rw [← heq]; exact hle)]
      exact h.upserted f p (mem_singleton.mpr heq)
    · exact h'.upserted f p hmem
  dropped q hno hex := by
    by_cases hlater : ∃ d ∈ edits, d.parts <+: q
    · exact h'.dropped q (fun f hf => hno f (mem_cons_of_mem e hf)) hlater
    · rw [h'.kept q fun d hd hle => hlater ⟨d, hd, hle⟩]
      obtain ⟨d, hd, hle⟩ := hex
      rcases mem_cons.mp hd with rfl | hd
      · exact h.dropped q (fun f hf => hno f (mem_cons.mpr (.inl (mem_singleton.mp hf))))
          ⟨d, mem_singleton.mpr rfl, hle⟩
      · exact absurd ⟨d, hd, hle⟩ hlater
  kept q hq := by
    rw [h'.kept q fun d hd => hq d (mem_cons_of_mem e hd)]
    refine h.kept q fun d hd => ?_
    rw [mem_singleton.mp hd]
    exact hq e mem_cons_self

/-- **The files that edits in order leave.** -/
theorem filesAfter_sequential (hset : FileSet edits) (hordered : AboveFirst edits)
    (h : edits.foldlM BatchEdit.apply n = .ok r) : FilesAfter n edits r := by
  have hops := hset.noDirs
  have hroots := hset.nonroot
  clear hset
  induction edits generalizing n with
  | nil =>
    cases h
    exact .nil _
  | cons e edits ih =>
    obtain ⟨m, hm, hrest⟩ := foldlM_cons_ok.mp h
    obtain ⟨hhead, htail⟩ := pairwise_cons.mp hordered
    rw [forall_mem_cons] at hops hroots
    exact (filesAfter_apply hops.1 hroots.1 hm).cons hhead (ih htail hrest hops.2 hroots.2)

theorem exists_sequential_of_unblocked (hset : FileSet edits)
    (hordered : AboveFirst edits) (hfree : Unblocked n edits) :
    ∃ r, edits.foldlM BatchEdit.apply n = .ok r := by
  have hops := hset.noDirs
  have hroots := hset.nonroot
  clear hset
  induction edits generalizing n with
  | nil => exact ⟨n, rfl⟩
  | cons e edits ih =>
    obtain ⟨hhead, htail⟩ := pairwise_cons.mp hordered
    rw [forall_mem_cons] at hops hroots
    obtain ⟨m, hm⟩ : ∃ m, e.apply n = .ok m := by
      obtain ⟨op, p⟩ := e
      cases op with
      | delete => exact ⟨_, rfl⟩
      | mkdir => exact absurd rfl hops.1
      | upsert f =>
        refine exists_setAt _ _ hroots.1 fun q hq hne => ?_
        rcases (hfree f p mem_cons_self q hq hne).2 with hnone | ⟨d, hd, hle⟩
        · exact hnone
        · -- what deletes a file above the path comes before it
          rcases mem_cons.mp hd with rfl | hd
          · exact absurd (hq.eq_of_length_le hle.length_le) hne
          · exact absurd (hle.trans hq) (hhead d hd)
    have hafter := filesAfter_apply hops.1 hroots.1 hm
    have hfree' : Unblocked m edits := by
      intro f p hmem q hq hne
      obtain ⟨hno, hcase⟩ := hfree f p (mem_cons_of_mem e hmem) q hq hne
      refine ⟨fun g hg => hno g (mem_cons_of_mem e hg), ?_⟩
      have hno' : ∀ g, ⟨.upsert g, q⟩ ∉ [e] := fun g hg =>
        hno g (mem_cons.mpr (.inl (mem_singleton.mp hg)))
      by_cases hhere : e.parts <+: q
      · exact .inl (hafter.dropped q hno' ⟨e, mem_singleton.mpr rfl, hhere⟩)
      · rcases hcase with hnone | ⟨d, hd, hle⟩
        · left
          rw [hafter.kept q fun d hd => by rw [mem_singleton.mp hd]; exact hhere, hnone]
        · rcases mem_cons.mp hd with rfl | hd
          · exact absurd hle hhere
          · exact .inr ⟨d, hd, hle⟩
    obtain ⟨r, hr⟩ := ih htail hfree' hops.2 hroots.2
    exact ⟨r, foldlM_cons_ok.mpr ⟨m, hm, hr⟩⟩

/-! ## `ApplyEdits` -/

theorem toBatch_apply {e : TreeEdit} {b : BatchEdit} (h : e.toBatch = .ok b) (n : Node) :
    e.apply n = b.apply n := by
  obtain ⟨p, ⟨f, rfl, rfl⟩ | ⟨rfl, rfl⟩ | ⟨rfl, rfl⟩⟩ := toBatch_cases h <;> rfl

theorem sequential_of_toBatch {edits : List TreeEdit} {ops : List BatchEdit}
    (h : List.Forall₂ (fun e b => Edit.toBatch e = .ok b) edits ops) (n : Node) :
    applyEditsSequential n edits = ops.foldlM BatchEdit.apply n := by
  induction h generalizing n with
  | nil => rfl
  | cons hb _ ih =>
    rw [applyEditsSequential, foldlM_cons, toBatch_apply hb]
    exact bind_congr ih

section ApplyEdits

variable {edits : List TreeEdit}

/-- The name of an edit's operation. -/
def Edit.opName {φ : Type} : Edit φ → String
  | .upsert _ _ => "upsert"
  | .delete _ => "delete"
  | .mkdir _ => "mkdir"
  | .rename _ _ => "rename"
  | .copy _ _ => "copy"

/-- Edits in the order of their paths, and of their operations at one path. -/
def sortEdits (edits : List TreeEdit) : List TreeEdit :=
  edits.insertionSort fun d e => renderPath d.path < renderPath e.path ∨
    (renderPath d.path = renderPath e.path ∧ d.opName ≤ e.opName)

/-- Writes and deletes of files, each path once, in the order of the paths. -/
structure FileEdits (edits : List TreeEdit) : Prop where
  kinds : ∀ e ∈ edits, (∃ p f, e = .upsert p f) ∨ ∃ p, e = .delete p
  nodup : (edits.map Edit.path).Nodup
  proper : ∀ e ∈ edits, e.path ≠ [] ∧ Plain e.path ∧ ∀ a ∈ e.path, validSegment a = true

theorem FileEdits.path_of_mem_writes {edits : List TreeEdit} {e : TreeEdit} {p : Path}
    (h : FileEdits edits) (he : e ∈ edits) (hp : p ∈ e.writes) : p = e.path := by
  rcases h.kinds e he with ⟨r, f, rfl⟩ | ⟨r, rfl⟩ <;> exact mem_singleton.mp hp

/-- The batch edit of a write or a delete. -/
def Edit.batch : TreeEdit → BatchEdit
  | .upsert p f => ⟨.upsert f, p⟩
  | .delete p | .mkdir p | .rename _ p | .copy _ p => ⟨.delete, p⟩

@[simp] theorem Edit.parts_batch (e : TreeEdit) : e.batch.parts = e.path := by cases e <;> rfl

theorem perm_sortEdits (edits : List TreeEdit) : (sortEdits edits).Perm edits :=
  perm_insertionSort _ edits

theorem mem_batch_upsert {f : FileEntry} {p : Path} :
    (⟨.upsert f, p⟩ : BatchEdit) ∈ edits.map Edit.batch ↔ .upsert p f ∈ edits := by
  rw [mem_map]
  constructor
  · rintro ⟨e, he, hb⟩
    cases e <;> cases hb
    exact he
  · intro he
    exact ⟨_, he, rfl⟩

section

variable (h : FileEdits edits)
include h

theorem FileEdits.sortEdits : FileEdits (sortEdits edits) where
  kinds e he := h.kinds e ((perm_sortEdits edits).mem_iff.mp he)
  nodup := ((perm_sortEdits edits).map _).nodup_iff.mpr h.nodup
  proper e he := h.proper e ((perm_sortEdits edits).mem_iff.mp he)

theorem FileEdits.toBatch :
    List.Forall₂ (fun e b => Edit.toBatch e = .ok b) edits (edits.map Edit.batch) := by
  rw [forall₂_map_right_iff, forall₂_same]
  intro e he
  obtain ⟨hroot, hplain, -⟩ := h.proper e he
  rcases h.kinds e he with ⟨p, f, rfl⟩ | ⟨p, rfl⟩
  · have hsplit : splitPath p = p := hplain
    have hroot : p ≠ [] := hroot
    rw [Edit.toBatch, hsplit, if_neg hroot]
    rfl
  · have hsplit : splitPath p = p := hplain
    rw [Edit.toBatch, hsplit]
    rfl

theorem FileEdits.fileSet : FileSet (edits.map Edit.batch) where
  nodup := by
    rw [map_map]
    exact (map_congr_left fun e _ => Edit.parts_batch e) ▸ h.nodup
  noDirs b hb := by
    obtain ⟨e, he, rfl⟩ := mem_map.mp hb
    cases e <;> exact fun h => nomatch h
  nonroot b hb := by
    obtain ⟨e, he, rfl⟩ := mem_map.mp hb
    rw [Edit.parts_batch]
    exact (h.proper e he).1

/-- In the order of the path strings, no path comes after one that lies under it. -/
theorem FileEdits.aboveFirst : AboveFirst ((GitSlice.sortEdits edits).map Edit.batch) := by
  rw [AboveFirst, pairwise_map]
  have hsorted : (GitSlice.sortEdits edits).Pairwise fun d e => renderPath d.path ≤
      renderPath e.path := by
    let key : TreeEdit → String ×ₗ String := fun e => toLex (renderPath e.path, e.opName)
    refine (pairwise_insertionSort_of_key key (fun d e => Prod.Lex.toLex_le_toLex.symm) edits).imp ?_
    exact Prod.Lex.monotone_fst _ _
  have hne : (GitSlice.sortEdits edits).Pairwise fun d e => d.path ≠ e.path := by
    rw [← pairwise_map]
    exact h.sortEdits.nodup
  refine (pairwise_and_iff.mpr ⟨hsorted, hne⟩).imp_of_mem fun {d e} hd he hde hle => hde.2 ?_
  rw [Edit.parts_batch, Edit.parts_batch] at hle
  exact renderPath_injective (h.sortEdits.proper d hd).2.2 (h.sortEdits.proper e he).2.2
    (le_antisymm hde.1 (renderPath_le hle))

omit h in
theorem mapM_toBatch {ops : List BatchEdit}
    (h : List.Forall₂ (fun e b => Edit.toBatch e = .ok b) edits ops) :
    edits.mapM Edit.toBatch = .ok ops := by
  induction h with
  | nil => rfl
  | cons hb _ ih =>
    rw [mapM_cons, hb, ih]
    rfl

/-- **The files that `ApplyEdits` leaves** after writes and deletes of files, whichever way it
takes. -/
theorem filesAfter_applyEdits (hr : applyEdits n (sortEdits edits) = .ok r) :
    FilesAfter n ((sortEdits edits).map Edit.batch) r := by
  have hbatch := h.sortEdits.toBatch
  rw [applyEdits, applyEditSet] at hr
  split_ifs at hr with hnil
  · cases hr
    rw [hnil]
    exact .nil _
  · obtain ⟨ops, hops, hrest⟩ := bind_eq_ok.mp hr
    rw [mapM_toBatch hbatch] at hops
    cases hops
    obtain ⟨r', hr', hret⟩ := bind_eq_ok.mp hrest
    cases hret
    refine filesAfter_applyBatchTo h.sortEdits.fileSet (fun e he => ?_) hr'
    exact le_max_of_le (mem_map_of_mem he) le_rfl
  · rw [sequential_of_toBatch hbatch n] at hr
    exact filesAfter_sequential h.sortEdits.fileSet h.aboveFirst hr

theorem exists_applyEdits (hfree : Unblocked n ((sortEdits edits).map Edit.batch)) :
    ∃ r, applyEdits n (sortEdits edits) = .ok r := by
  have hbatch := h.sortEdits.toBatch
  rw [applyEdits, applyEditSet]
  split_ifs
  · exact ⟨n, rfl⟩
  · obtain ⟨r, hr⟩ : ∃ r, applyBatch n ((sortEdits edits).map Edit.batch) = .ok r :=
      exists_applyBatchTo_of_unblocked h.sortEdits.fileSet hfree
    exact ⟨r.1, bind_eq_ok.mpr ⟨_, mapM_toBatch hbatch, bind_eq_ok.mpr ⟨r, hr, rfl⟩⟩⟩
  · rw [sequential_of_toBatch hbatch n]
    exact exists_sequential_of_unblocked h.sortEdits.fileSet h.aboveFirst hfree

theorem fileAt_applyEdits (hr : applyEdits n (sortEdits edits) = .ok r) :
    (∀ p f, .upsert p f ∈ edits → r.fileAt p = some f) ∧
      (∀ q, (∀ f, .upsert q f ∉ edits) → (∃ e ∈ edits, e.path <+: q) → r.fileAt q = none) ∧
      ∀ q, (∀ e ∈ edits, ¬ e.path <+: q) → r.fileAt q = n.fileAt q := by
  have hafter := filesAfter_applyEdits h hr
  have hmem : ∀ e, e ∈ GitSlice.sortEdits edits ↔ e ∈ edits :=
    fun e => (perm_sortEdits edits).mem_iff
  refine ⟨fun p f hp => ?_, fun q hno hex => ?_, fun q hq => ?_⟩
  · exact hafter.upserted f p (mem_batch_upsert.mpr ((hmem _).mpr hp))
  · refine hafter.dropped q (fun f hf => hno f ((hmem _).mp (mem_batch_upsert.mp hf))) ?_
    obtain ⟨e, he, hle⟩ := hex
    exact ⟨e.batch, mem_map_of_mem ((hmem e).mpr he), by rwa [Edit.parts_batch]⟩
  · refine hafter.kept q fun b hb => ?_
    obtain ⟨e, he, rfl⟩ := mem_map.mp hb
    rw [Edit.parts_batch]
    exact hq e ((hmem e).mp he)

end

/-- **The files after writes and deletes** come from the tree or are written at their paths, as the
tree store reads these. -/
theorem filesFrom_applyEdits (hkinds : ∀ e ∈ edits, (∃ p f, e = .upsert p f) ∨ ∃ p, e = .delete p)
    (hr : applyEdits n edits = .ok r) :
    FilesFrom (fun q f => ∃ p, .upsert p f ∈ edits ∧ splitPath p = q) n r := by
  obtain ⟨ops, r', -, hops, hbatch, rfl⟩ | hseq := applyEditSet_cases hr
  · refine filesFrom_applyBatchTo (fun f q hmem => ?_) hbatch
    obtain ⟨e, he, hb⟩ := exists_left_of_forall₂ hops hmem
    obtain ⟨p, ⟨g, rfl, heq⟩ | ⟨-, heq⟩ | ⟨-, heq⟩⟩ := toBatch_cases hb <;> cases heq
    exact ⟨p, he, rfl⟩
  · refine foldlM_induction (FilesFrom _ n) (fun m e he m' hm hstep q f hq => ?_)
      (fun _ _ hq => .inl hq) hseq
    suffices hfrom : FilesFrom (fun q f => ∃ p, .upsert p f ∈ edits ∧ splitPath p = q) m m' from
      (hfrom q f hq).elim (hm q f) .inr
    rcases hkinds e he with ⟨p, g, rfl⟩ | ⟨p, rfl⟩
    · have hset : m.setFile (splitPath p) g = .ok m' := hstep
      have heffect : BatchOp.Effect (.upsert g) (splitPath p) m m' := by
        have hget := getEntry_setAt hset []
        rwa [append_nil] at hget
      refine filesFrom_of_effect (changesIn_setAt hset) heffect fun f hf => ?_
      cases hf
      exact ⟨p, he, rfl⟩
    · have hdelete : (m.deletePath (splitPath p)).1 = m' := Except.ok.inj hstep
      subst hdelete
      by_cases hroot : splitPath p = []
      · rw [hroot]
        exact fun _ _ hq => .inl hq
      · have heffect : BatchOp.Effect .delete (splitPath p) m (m.deletePath (splitPath p)).1 :=
          fun q => getEntry_deletePath m hroot q
        exact filesFrom_of_effect (changesIn_deletePath m _) heffect fun f hf => nomatch hf

end ApplyEdits

end GitSlice
