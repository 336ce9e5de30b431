import GitSlice.TreeStore.Edit
import Mathlib.Data.String.Basic

/-! # Leaves
A tree ends at its files and at the directories without entries: its leaves. The writers keep the
entries of every node sorted by name (`Node.WellFormed`), and a sorted tree is given by its leaves
(`Node.ext_leaf`), so two ways to edit a tree agree when they leave the same leaves.

Read by leaves, a delete is simple: `leafAt_deletePath` says that it takes away the leaves at its
path and under it and touches no other, since a directory that it empties goes with it. -/

namespace GitSlice

open Option

open List GitSlice.Except

/-- What a tree holds at a path where it ends. -/
inductive Leaf where
  /-- A file. -/
  | file (entry : FileEntry)
  /-- A directory without entries. -/
  | emptyDirectory
deriving DecidableEq

namespace Node

/-! ## Well-formed trees -/

/-- The name comes before the names of the entries, if they are sorted. -/
def Before (name : String) : Node → Prop
  | .nil => True
  | .file a _ _ | .directory a _ _ => name < a

/-- A **well-formed** tree: the entries of every node are sorted by their names, which are distinct;
the names satisfy `N` and the files `F`. -/
def WellFormed (N : String → Prop) (F : FileEntry → Prop) : Node → Prop
  | .nil => True
  | .file a f rest => (N a ∧ F f) ∧ Before a rest ∧ rest.WellFormed N F
  | .directory a c rest => (N a ∧ c.WellFormed N F) ∧ Before a rest ∧ rest.WellFormed N F

/-- A tree with sorted nodes. -/
abbrev Sorted (n : Node) : Prop := n.WellFormed (fun _ => True) (fun _ => True)

end Node

/-- The tree under an entry is well-formed. -/
def Entry.WellFormed (N : String → Prop) (F : FileEntry → Prop) : Entry → Prop
  | .file f => F f
  | .directory c => c.WellFormed N F

namespace Node

section WellFormed

variable {N N' : String → Prop} {F F' : FileEntry → Prop}
  {n : Node} {p : List String} {a : String} {e : Entry}

@[simp] theorem wellFormed_cons :
    (cons a e n).WellFormed N F ↔ (N a ∧ e.WellFormed N F) ∧ Before a n ∧ n.WellFormed N F := by
  cases e <;> rfl

variable {b : String}

@[simp] theorem before_cons : Before a (cons b e n) ↔ a < b := by
  cases e <;> rfl

theorem Before.trans (h : Before b n) (hab : a < b) : Before a n := by
  cases n with
  | nil => trivial
  | file | directory => exact lt_trans hab h

theorem WellFormed.mono (hN : ∀ a, N a → N' a) (hF : ∀ f, F f → F' f)
    (h : n.WellFormed N F) : n.WellFormed N' F' := by
  induction n with
  | nil => trivial
  | file a f rest ih => exact ⟨⟨hN a h.1.1, hF f h.1.2⟩, h.2.1, ih h.2.2⟩
  | directory a c rest ihc ih => exact ⟨⟨hN a h.1.1, ihc h.1.2⟩, h.2.1, ih h.2.2⟩

section

variable (h : n.WellFormed N F)
include h

theorem WellFormed.sorted : n.Sorted :=
  h.mono (fun _ _ => trivial) fun _ _ => trivial

omit h in
theorem before_upsertEntry {b : String} (h : Before b n) (hab : b < a) :
    Before b (n.upsertEntry a e) := by
  cases n with
  | nil => exact before_cons.mpr hab
  | file c f rest | directory c f rest =>
    rw [upsertEntry]
    split_ifs
    · exact before_cons.mpr hab
    · exact before_cons.mpr hab
    · exact h

theorem WellFormed.upsertEntry (ha : N a) (he : e.WellFormed N F) :
    (n.upsertEntry a e).WellFormed N F := by
  induction n with
  | nil => exact wellFormed_cons.mpr ⟨⟨ha, he⟩, trivial, trivial⟩
  | file _ _ _ ih | directory _ _ _ _ ih =>
    rw [Node.upsertEntry]
    split_ifs with hb hlt
    · subst hb
      exact wellFormed_cons.mpr ⟨⟨ha, he⟩, h.2⟩
    · exact wellFormed_cons.mpr ⟨⟨ha, he⟩, hlt, h⟩
    · exact ⟨h.1, before_upsertEntry h.2.1 (lt_of_le_of_ne (not_lt.mp hlt) hb), ih h.2.2⟩

omit h in
theorem before_removeEntry {b : String} (h : Before b n) (hn : n.WellFormed N F) :
    Before b (n.removeEntry a) := by
  induction n with
  | nil => trivial
  | file _ _ _ ih | directory _ _ _ _ ih =>
    rw [Node.removeEntry]
    split_ifs
    · exact ih (hn.2.1.trans h) hn.2.2
    · exact h

theorem WellFormed.removeEntry (a : String) : (n.removeEntry a).WellFormed N F := by
  induction n with
  | nil => trivial
  | file _ _ _ ih | directory _ _ _ _ ih =>
    rw [Node.removeEntry]
    split_ifs
    · exact ih h.2.2
    · exact ⟨h.1, before_removeEntry h.2.1 h.2.2, ih h.2.2⟩

theorem WellFormed.findEntry (he : n.findEntry a = some e) : N a ∧ e.WellFormed N F := by
  induction n with
  | nil => cases he
  | file _ _ _ ih | directory _ _ _ _ ih =>
    rw [Node.findEntry] at he
    split_ifs at he with hb
    · cases he
      exact hb ▸ h.1
    · exact ih h.2.2 he

theorem WellFormed.child (a : String) : (n.child a).WellFormed N F := by
  rw [Node.child]
  split
  · rename_i c hc
    exact (h.findEntry hc).2
  · trivial

/-- Every path of a well-formed tree has proper segments, and what is there is well-formed. -/
theorem WellFormed.getEntry (he : n.getEntry p = some e) : (∀ a ∈ p, N a) ∧ e.WellFormed N F := by
  induction p generalizing n with
  | nil =>
    cases he
    exact ⟨fun a ha => (nomatch ha), h⟩
  | cons a p ih =>
    rw [getEntry_cons] at he
    obtain ⟨d, hd, hde⟩ := bind_eq_some_iff.mp he
    obtain ⟨ha, hdw⟩ := h.findEntry hd
    cases d with
    | file =>
      cases p with
      | nil =>
        cases hde
        exact ⟨fun b hb => mem_singleton.mp hb ▸ ha, hdw⟩
      | cons b p => cases hde
    | directory =>
      obtain ⟨hp, hew⟩ := ih hdw hde
      exact ⟨forall_mem_cons.mpr ⟨ha, hp⟩, hew⟩

end

/-! ## The writers keep trees well-formed -/

variable {n' : Node}

theorem WellFormed.setAt {required : String} (h : n.WellFormed N F) (hp : ∀ a ∈ p, N a)
    (he : e.WellFormed N F) (hn : Node.setAt required n p e = .ok n') : n'.WellFormed N F := by
  induction p generalizing n n' with
  | nil => cases hn
  | cons a p ih =>
    have ha := hp a mem_cons_self
    cases p with
    | nil =>
      cases hn
      exact h.upsertEntry ha he
    | cons b p =>
      obtain ⟨-, c, hc, rfl⟩ := setAt_cons hn
      exact h.upsertEntry ha (ih (h.child a) (fun x hx => hp x (mem_cons_of_mem a hx)) hc)

theorem WellFormed.setDirectory (h : n.WellFormed N F) (hp : ∀ a ∈ p, N a)
    (hn : Node.setDirectory n p = .ok n') : n'.WellFormed N F := by
  induction p generalizing n n' with
  | nil => cases hn
  | cons a p ih =>
    have ha := hp a mem_cons_self
    cases p with
    | nil =>
      rw [Node.setDirectory] at hn
      split at hn
      · cases hn
      · cases hn
        exact h
      · cases hn
        exact h.upsertEntry ha trivial
    | cons b p =>
      obtain ⟨-, c, hc, rfl⟩ := setDirectory_cons hn
      exact h.upsertEntry ha (ih (h.child a) (fun x hx => hp x (mem_cons_of_mem a hx)) hc)

theorem WellFormed.deletePath (h : n.WellFormed N F) (p : List String) :
    (n.deletePath p).1.WellFormed N F := by
  induction p generalizing n with
  | nil => exact h
  | cons a p ih =>
    cases p with
    | nil =>
      rw [Node.deletePath]
      split
      · exact h
      · exact h.removeEntry a
    | cons b p =>
      rw [Node.deletePath]
      split
      · rename_i c hc
        obtain ⟨ha, hcw⟩ := h.findEntry hc
        dsimp only
        split_ifs
        · exact h.removeEntry a
        · exact h.upsertEntry ha (ih hcw)
      · exact h

end WellFormed

end Node

/-! ## Edit sets keep trees well-formed -/

section WellFormed

open Node

variable {N : String → Prop} {F : FileEntry → Prop} {n : Node}

/-- The names and the file of an edit of a batch are proper. -/
def BatchEdit.WellFormed (N : String → Prop) (F : FileEntry → Prop) (e : BatchEdit) : Prop :=
  (∀ a ∈ e.parts, N a) ∧ ∀ f, e.op = .upsert f → F f

theorem wellFormed_applyLeaf {acc acc' : Node × Bool} {e : BatchEdit} (he : e.WellFormed N F)
    (h : applyLeaf acc e = .ok acc') (hacc : acc.1.WellFormed N F) : acc'.1.WellFormed N F := by
  rw [applyLeaf] at h
  split at h
  · rename_i name hname
    have hN : N name := he.1 name (hname ▸ mem_singleton_self name)
    split at h
    · split at h
      · cases h
        exact hacc.removeEntry _
      · cases h
        exact hacc
    · split at h
      · cases h
      · cases h
        exact hacc
      · cases h
        exact hacc.upsertEntry hN trivial
    · rename_i f hf
      cases h
      exact hacc.upsertEntry hN (he.2 f hf)
  · cases h
    exact hacc

theorem wellFormed_applyBatchTo {depth : Nat} {edits : List BatchEdit} {r : Node × Bool}
    (hedits : ∀ e ∈ edits, e.WellFormed N F) (h : applyBatchTo depth n edits = .ok r)
    (hn : n.WellFormed N F) : r.1.WellFormed N F := by
  induction depth generalizing n edits r with
  | zero =>
    cases h
    exact hn
  | succ depth ih =>
    obtain ⟨acc, hleaves, hrest⟩ := bind_eq_ok.mp h
    obtain ⟨acc', hchildren, hret⟩ := bind_eq_ok.mp hrest
    cases hret
    have hacc : acc.1.WellFormed N F := foldlM_induction (fun m => m.1.WellFormed N F)
      (fun _ e he _ hm hstep => wellFormed_applyLeaf (hedits e he) hstep hm) hn hleaves
    refine foldlM_induction (fun m => m.1.WellFormed N F) (fun m name hname m' hm hstep => ?_) hacc
      hchildren
    -- the name and the edits below it come from edits of the batch
    have hbelow : ∀ e ∈ childEdits edits name, N name ∧ e.WellFormed N F := by
      intro e he
      obtain ⟨hparts, hfile⟩ := hedits _ (mem_childEdits.mp he).2
      exact ⟨hparts name mem_cons_self, fun a ha => hparts a (mem_cons_of_mem name ha), hfile⟩
    obtain ⟨rfl, -, -⟩ | ⟨c, emptied, hc, rfl, -⟩ := applyChild_cases hstep
    · exact hm
    · cases emptied with
      | true => exact hm.removeEntry _
      | false =>
        obtain ⟨e, he⟩ := exists_mem_of_ne_nil _ (mem_childNames.mp hname)
        exact hm.upsertEntry (hbelow e he).1 (ih (fun e he => (hbelow e he).2) hc (hm.child name))

/-- The names and the file that an edit writes are proper. -/
def Edit.WellFormed (N : String → Prop) (F : FileEntry → Prop) (e : TreeEdit) : Prop :=
  (∀ p ∈ e.writes, ∀ a ∈ splitPath p, N a) ∧ ∀ p f, e = .upsert p f → F f

variable {n' : Node}

theorem Edit.wellFormed_apply {e : TreeEdit} (he : e.WellFormed N F) (h : e.apply n = .ok n')
    (hn : n.WellFormed N F) : n'.WellFormed N F := by
  -- where an error is lost, the tree is empty
  have hignoring : ∀ {m : Node} {p : List String} {x : Entry}, m.WellFormed N F → (∀ a ∈ p, N a) →
      x.WellFormed N F → (Edit.ignoringError (m.setEntry p x)).WellFormed N F := by
    intro m p x hm hp hx
    cases hset : m.setEntry p x with
    | ok => exact hm.setAt hp hx hset
    | error => trivial
  have hpath : ∀ a ∈ splitPath e.path, N a := by
    refine he.1 e.path ?_
    cases e <;> simp [Edit.writes, Edit.path]
  cases e with
  | upsert p f => exact hn.setAt (e := .file f) hpath (he.2 p f rfl) h
  | delete =>
    cases h
    exact hn.deletePath _
  | mkdir => exact hn.setDirectory hpath h
  | rename old p =>
    simp only [Edit.apply] at h
    split at h
    · cases h
    · rename_i x hx
      cases h
      exact hignoring (hn.deletePath _) hpath (hn.getEntry (Edit.getEntry_of_entryAt hx).2).2
  | copy old p =>
    simp only [Edit.apply] at h
    split at h
    · cases h
    · rename_i x hx
      cases h
      exact hignoring hn hpath (hn.getEntry (Edit.getEntry_of_entryAt hx).2).2

theorem toBatch_wellFormed {e : TreeEdit} {b : BatchEdit} (he : e.WellFormed N F)
    (h : e.toBatch = .ok b) : b.WellFormed N F := by
  obtain ⟨p, ⟨f, rfl, rfl⟩ | ⟨rfl, rfl⟩ | ⟨rfl, rfl⟩⟩ := toBatch_cases h
  · refine ⟨he.1 p mem_cons_self, fun g hg => ?_⟩
    cases hg
    exact he.2 p f rfl
  · exact ⟨he.1 p mem_cons_self, fun g hg => (nomatch hg)⟩
  · exact ⟨he.1 p mem_cons_self, fun g hg => (nomatch hg)⟩

theorem wellFormed_applyEditSet {edits : List TreeEdit} (hedits : ∀ e ∈ edits, e.WellFormed N F)
    (h : applyEditSet n edits = .ok n') (hn : n.WellFormed N F) : n'.WellFormed N F := by
  obtain ⟨ops, r, -, hops, hr, rfl⟩ | hseq := applyEditSet_cases h
  · refine wellFormed_applyBatchTo (fun b hb => ?_) hr hn
    obtain ⟨e, he, hbatch⟩ := exists_left_of_forall₂ hops hb
    exact toBatch_wellFormed (hedits e he) hbatch
  · exact foldlM_induction (Node.WellFormed N F)
      (fun _ e he _ hm hstep => Edit.wellFormed_apply (hedits e he) hstep hm) hn hseq

end WellFormed

/-! ## Trees that edit sets make -/

/-- The edit's paths are paths: their segments are proper. -/
def Edit.Proper {φ : Type} (e : Edit φ) : Prop :=
  ∀ p ∈ e.writes ++ e.reads, ∀ a ∈ p, validSegment a = true

instance {φ : Type} (e : Edit φ) : Decidable e.Proper :=
  inferInstanceAs (Decidable (∀ p ∈ e.writes ++ e.reads, ∀ a ∈ p, validSegment a = true))

theorem Edit.Proper.wellFormed {e : TreeEdit} (h : e.Proper) :
    e.WellFormed (validSegment · = true) (fun _ => True) :=
  ⟨fun p hp => validSegment_splitPath (h p (mem_append_left _ hp)), fun _ _ _ => trivial⟩

/-- A tree that `ApplyEdits` makes of the empty root, in any number of calls. -/
inductive Reachable : Node → Prop where
  | empty : Reachable .nil
  | edit {n n' : Node} (edits : List TreeEdit) (hproper : ∀ e ∈ edits, e.Proper) (h : Reachable n)
    (hn : applyEdits n edits = .ok n') : Reachable n'

theorem Reachable.wellFormed {n : Node} (h : Reachable n) :
    n.WellFormed (validSegment · = true) (fun _ => True) := by
  induction h with
  | empty => trivial
  | edit edits hproper _ hn ih =>
    exact wellFormed_applyEditSet (fun e he => (hproper e he).wellFormed) hn ih

namespace Node

variable {n : Node} {p : List String} {a : String} {e : Entry}

/-! ## Leaves -/

/-- The leaf at a path. The root of the empty tree counts as one. -/
def leafAt (n : Node) (p : List String) : Option Leaf :=
  match n.getEntry p with
  | some (.file f) => some (.file f)
  | some (.directory .nil) => some .emptyDirectory
  | _ => none

variable {q : List String}

theorem leafAt_congr {n' : Node} (h : n'.getEntry q = n.getEntry p) : n'.leafAt q = n.leafAt p := by
  rw [leafAt, leafAt, h]

theorem leafAt_eq_none_of_getEntry (h : n.getEntry p = none) : n.leafAt p = none := by
  rw [leafAt, h]

theorem leafAt_eq_file {f : FileEntry} :
    n.leafAt p = some (.file f) ↔ n.getEntry p = some (.file f) := by
  rw [leafAt]
  split
  · simp_all
  · simp_all
  · rename_i hfile _
    exact ⟨fun h => (nomatch h), fun h => absurd h (hfile f)⟩

theorem leafAt_eq_emptyDirectory :
    n.leafAt p = some .emptyDirectory ↔ n.getEntry p = some (.directory .nil) := by
  rw [leafAt]
  split
  · simp_all
  · simp_all
  · rename_i hempty
    exact ⟨fun h => (nomatch h), fun h => absurd h hempty⟩

theorem leafAt_eq_none_of_below (hp : p <+: q) (hne : p ≠ q) (h : n.getEntry q = some e) :
    n.leafAt p = none := by
  obtain ⟨r, rfl⟩ := hp
  rw [getEntry_append] at h
  obtain ⟨d, hd, hr⟩ := bind_eq_some_iff.mp h
  rw [leafAt, hd]
  obtain ⟨a, r, rfl⟩ := exists_cons_of_ne_nil fun hnil : r = [] => hne (by rw [hnil, append_nil])
  cases d with
  | file => cases hr
  | directory c =>
    cases c with
    | nil =>
      rw [Entry.under, getEntry_nil_cons] at hr
      cases hr
    | file _ _ _ | directory _ _ _ => rfl

theorem leafAt_child (n : Node) (a b : String) (p : List String) :
    n.leafAt (a :: b :: p) = (n.child a).leafAt (b :: p) :=
  leafAt_congr (getEntry_child n a b p)

theorem exists_leaf_below (hn : n ≠ .nil) : ∃ p, p ≠ [] ∧ n.leafAt p ≠ none := by
  induction n with
  | nil => exact absurd rfl hn
  | file a f rest _ =>
    refine ⟨[a], cons_ne_nil _ _, ?_⟩
    rw [leafAt, getEntry_cons, findEntry]
    simp [Entry.under]
  | directory a c rest ihc _ =>
    have hchild : (Node.directory a c rest).child a = c := by rw [child, findEntry, if_pos rfl]
    by_cases hc : c = .nil
    · refine ⟨[a], cons_ne_nil _ _, ?_⟩
      rw [leafAt, getEntry_cons, findEntry, hc]
      simp [Entry.under]
    · obtain ⟨p, hp, hleaf⟩ := ihc hc
      obtain ⟨b, p, rfl⟩ := exists_cons_of_ne_nil hp
      refine ⟨a :: b :: p, cons_ne_nil _ _, ?_⟩
      rwa [leafAt_child, hchild]

/-! ## A sorted tree is given by its leaves -/

theorem findEntry_eq_none_of_before (h : n.Sorted) (ha : Before a n) : n.findEntry a = none := by
  induction n with
  | nil => rfl
  | file b f rest ih | directory b f rest _ ih =>
    rw [findEntry, if_neg (ne_of_gt ha)]
    exact ih h.2.2 (h.2.1.trans ha)

theorem ext_cons {rest m : Node} (hn : (cons a e rest).Sorted)
    (hm : m.Sorted) (h : ∀ b, (cons a e rest).findEntry b = m.findEntry b)
    (ih : ∀ m', m'.Sorted → (∀ b, rest.findEntry b = m'.findEntry b) → rest = m') :
    cons a e rest = m := by
  obtain ⟨-, hbefore, hrest⟩ := wellFormed_cons.mp hn
  obtain ⟨b, d, rest', rfl⟩ : ∃ b d rest', m = cons b d rest' := by
    cases m with
    | nil =>
      have ha := h a
      rw [findEntry_cons, if_pos rfl] at ha
      cases ha
    | file b f rest' => exact ⟨b, .file f, rest', rfl⟩
    | directory b c rest' => exact ⟨b, .directory c, rest', rfl⟩
  obtain ⟨-, hbefore', hrest'⟩ := wellFormed_cons.mp hm
  -- the first names are the smallest, so they are the same
  have hab : a = b := by
    rcases lt_trichotomy a b with hlt | heq | hgt
    · have ha := h a
      rw [findEntry_cons, if_pos rfl, findEntry_eq_none_of_before hm (before_cons.mpr hlt)] at ha
      cases ha
    · exact heq
    · have hb := h b
      rw [findEntry_cons b, if_pos rfl, findEntry_eq_none_of_before hn (before_cons.mpr hgt)] at hb
      cases hb
  subst hab
  have hed : some e = some d := by
    have ha := h a
    rwa [findEntry_cons, findEntry_cons, if_pos rfl, if_pos rfl] at ha
  have hrests : rest = rest' := by
    refine ih rest' hrest' fun c => ?_
    by_cases hc : a = c
    · subst hc
      rw [findEntry_eq_none_of_before hrest hbefore, findEntry_eq_none_of_before hrest' hbefore']
    · have hfind := h c
      rwa [findEntry_cons, findEntry_cons, if_neg hc, if_neg hc] at hfind
  rw [Option.some.inj hed, hrests]

theorem ext_findEntry {m : Node} (hn : n.Sorted) (hm : m.Sorted)
    (h : ∀ a, n.findEntry a = m.findEntry a) : n = m := by
  induction n generalizing m with
  | nil =>
    cases m with
    | nil => rfl
    | file a f rest | directory a f rest =>
      have ha := h a
      rw [findEntry, findEntry, if_pos rfl] at ha
      cases ha
  | file a f rest ih =>
    exact ext_cons (e := .file f) hn hm h fun m' hm' h' => ih hn.2.2 hm' h'
  | directory a c rest _ ih =>
    exact ext_cons (e := .directory c) hn hm h fun m' hm' h' => ih hn.2.2 hm' h'

theorem sizeOf_lt_of_findEntry {c : Node} (h : n.findEntry a = some (.directory c)) :
    sizeOf c < sizeOf n := by
  induction n with
  | nil => cases h
  | file b f rest ih =>
    rw [findEntry] at h
    split_ifs at h
    · cases h
    · have := ih h
      simp
      omega
  | directory b d rest _ ih =>
    rw [findEntry] at h
    split_ifs at h
    · cases h
      simp
      omega
    · have := ih h
      simp
      omega

theorem exists_leaf_of_getEntry (h : n.getEntry p = some e) :
    ∃ r, n.leafAt (p ++ r) ≠ none := by
  cases e with
  | file =>
    refine ⟨[], ?_⟩
    rw [append_nil, leafAt_eq_file.mpr h]
    exact some_ne_none _
  | directory c =>
    by_cases hc : c = .nil
    · refine ⟨[], ?_⟩
      rw [append_nil, leafAt_eq_emptyDirectory.mpr (hc ▸ h)]
      exact some_ne_none _
    · obtain ⟨r, -, hr⟩ := exists_leaf_below hc
      refine ⟨r, ?_⟩
      rwa [leafAt_congr (show n.getEntry (p ++ r) = c.getEntry r by rw [getEntry_append, h]; rfl)]

theorem leafAt_of_findEntry_eq_none (h : n.findEntry a = none) (p : List String) :
    n.leafAt (a :: p) = none :=
  leafAt_eq_none_of_getEntry (by rw [getEntry_cons, h, bind_none])

/-- **Sorted trees with the same leaves are equal.** -/
theorem ext_leaf {n m : Node} (hn : n.Sorted) (hm : m.Sorted)
    (h : ∀ p, p ≠ [] → n.leafAt p = m.leafAt p) : n = m := by
  refine ext_findEntry hn hm fun a => ?_
  have ha : ∀ p, n.leafAt (a :: p) = m.leafAt (a :: p) := fun p => h _ (cons_ne_nil a p)
  cases hna : n.findEntry a with
  | none =>
    cases hma : m.findEntry a with
    | none => rfl
    | some e =>
      obtain ⟨p, hp⟩ := exists_leaf_of_getEntry (p := [a]) hma
      exact absurd ((ha p).symm.trans (leafAt_of_findEntry_eq_none hna p)) hp
  | some e =>
    cases hma : m.findEntry a with
    | none =>
      obtain ⟨p, hp⟩ := exists_leaf_of_getEntry (p := [a]) hna
      exact absurd ((ha p).trans (leafAt_of_findEntry_eq_none hma p)) hp
    | some e' =>
      have hroot := ha []
      rw [leafAt, leafAt, getEntry_cons, getEntry_cons, hna, hma] at hroot
      cases e with
      | file =>
        cases e' with
        | file => simpa [Entry.under] using hroot
        | directory d => cases d <;> simp [Entry.under] at hroot
      | directory c =>
        cases e' with
        | file => cases c <;> simp [Entry.under] at hroot
        | directory d =>
          have hchildren : ∀ p, p ≠ [] → c.leafAt p = d.leafAt p := by
            intro p hp
            obtain ⟨b, p, rfl⟩ := exists_cons_of_ne_nil hp
            have hbelow := ha (b :: p)
            rwa [leafAt_child, leafAt_child, child, child, hna, hma] at hbelow
          rw [ext_leaf (hn.findEntry hna).2 (hm.findEntry hma).2 hchildren]
termination_by sizeOf n
decreasing_by exact sizeOf_lt_of_findEntry hna

/-! ## The leaves that the writers leave -/

theorem deletePath_nil (p : List String) : deletePath .nil p = (.nil, false) := by
  match p with
  | [] => rfl
  | [a] => rfl
  | a :: b :: rest => rfl

theorem deletePath_emptied_iff :
    (deletePath n p).2 = true ↔ (deletePath n p).1 = .nil ∧ n ≠ .nil := by
  constructor
  · intro h
    refine ⟨deletePath_emptied h, ?_⟩
    rintro rfl
    rw [deletePath_nil] at h
    cases h
  · rintro ⟨hnil, hn⟩
    match p with
    | [] => exact absurd hnil hn
    | [a] =>
      rw [deletePath] at hnil ⊢
      split at hnil
      · exact absurd hnil hn
      · simp only at hnil ⊢
        rw [hnil]
        rfl
    | a :: b :: rest =>
      rw [deletePath] at hnil ⊢
      split at hnil
      · rename_i c hc
        dsimp only at hnil ⊢
        split_ifs at hnil ⊢ with hemptied
        · rw [hnil, hemptied]
          rfl
        · -- the directory is still there
          have hfind := findEntry_upsertEntry n a (.directory (deletePath c (b :: rest)).1) a
          rw [hnil, if_pos rfl] at hfind
          cases hfind
      · exact absurd hnil hn

/-- **A delete takes away the leaves at its path and under it**, and no other. -/
theorem leafAt_deletePath (n : Node) (hp : p ≠ []) (hq : q ≠ []) :
    (deletePath n p).1.leafAt q = if p <+: q then none else n.leafAt q := by
  split_ifs with hpq
  · obtain ⟨r, rfl⟩ := hpq
    exact leafAt_eq_none_of_getEntry (getEntry_deletePath n hp r)
  · induction p generalizing n q with
    | nil => exact absurd rfl hp
    | cons a p ih =>
      obtain ⟨c, q, rfl⟩ := exists_cons_of_ne_nil hq
      by_cases hac : a = c
      · subst hac
        cases p with
        | nil => exact absurd (cons_prefix_cons.mpr ⟨rfl, nil_prefix⟩) hpq
        | cons b p =>
          by_cases hdir : ∃ d, n.findEntry a = some (.directory d)
          · obtain ⟨d, hd⟩ := hdir
            cases q with
            | nil =>
              -- the directory is gone only if it had entries, and empty only if it was
              rw [leafAt, leafAt, getEntry_cons, getEntry_cons, deletePath, hd]
              by_cases hemptied : (deletePath d (b :: p)).2 = true
              · have hne := (deletePath_emptied_iff.mp hemptied).2
                simp only [if_pos hemptied, findEntry_removeEntry, if_pos, bind_none,
                  bind_some, Entry.under, getEntry_root]
                cases d with
                | nil => exact absurd rfl hne
                | file _ _ _ | directory _ _ _ => rfl
              · simp only [if_neg hemptied, findEntry_upsertEntry, if_pos, bind_some,
                  Entry.under, getEntry_root]
                cases hd' : (deletePath d (b :: p)).1 with
                | nil =>
                  by_cases hnil : d = .nil
                  · rw [hnil]
                  · exact absurd (deletePath_emptied_iff.mpr ⟨hd', hnil⟩) hemptied
                | file _ _ _ | directory _ _ _ =>
                  cases d with
                  | nil =>
                    rw [deletePath_nil] at hd'
                    cases hd'
                  | file _ _ _ | directory _ _ _ => rfl
            | cons e q =>
              have hchild : n.child a = d := by rw [child, hd]
              rw [leafAt_child, leafAt_child, child_deletePath hd, hchild]
              refine ih d (cons_ne_nil _ _) (cons_ne_nil _ _) fun h => hpq ?_
              exact cons_prefix_cons.mpr ⟨rfl, h⟩
          · rw [deletePath_cons_of_not_directory fun d hd => hdir ⟨d, hd⟩]
      · exact leafAt_congr (getEntry_congr (findEntry_deletePath_of_ne hac) q)

end Node

end GitSlice
