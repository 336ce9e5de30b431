import GitSlice.Library.Gives
import GitSlice.TreeStore.Listing
import GitSlice.TreeStore.Objects

/-! # Stored trees
The functions on ids refine those on nodes. A tree is *held* by the objects that a buffer shows when
each of its nodes is stored under its id (`TreeHash.Holds`). Objects are only ever added, so a tree
that is held stays so, and a function that starts on a held tree returns the id of the tree that the
function on nodes returns, which is held by then (`applyEditSet_refines`). What the buffer holds
besides makes no difference, so edit sets that share a buffer and edit sets with a buffer each have
the same ids. -/

namespace GitSlice

open Node List

/-- The tree under an entry has sorted nodes. -/
abbrev Entry.Sorted (e : Entry) : Prop := e.WellFormed (fun _ => True) (fun _ => True)

/-! ## The entries of a stored node -/

namespace TreeObject

variable {τ : Type}

theorem sortEntries_eq {l l' : TreeObject τ} (hperm : l.Perm l')
    (hl' : l'.Pairwise fun x y => x.1 < y.1) : l.sortEntries = l' :=
  insertionSort_eq_of_key Prod.fst (fun _ _ => Iff.rfl) hperm hl'

end TreeObject

namespace TreeHash

variable {τ : Type} (h : TreeHash τ)

/-- The stored form of a node. -/
@[simp] def object : Node → TreeObject τ
  | .nil => []
  | .file a f rest => (a, .file f) :: object rest
  | .directory a c rest => (a, .directory (h.treeId (object c))) :: object rest

/-- The id of a tree. -/
def idOf (n : Node) : τ := h.treeId (h.object n)

/-- The stored form of an entry. -/
def entry : Entry → ObjectEntry τ
  | .file f => .file f
  | .directory c => .directory (h.idOf c)

@[simp] theorem object_cons (a : String) (e : Entry) (n : Node) :
    h.object (cons a e n) = (a, h.entry e) :: h.object n := by
  cases e <;> rfl

theorem idOf_ne_unset (n : Node) : h.idOf n ≠ h.unset := h.treeId_ne_unset _

theorem object_injective : Function.Injective h.object := by
  intro n
  induction n with
  | nil =>
    intro m hm
    cases m with
    | nil => rfl
    | file | directory => cases hm
  | file a f rest ih =>
    intro m hm
    cases m with
    | nil | directory => cases hm
    | file =>
      simp only [object, List.cons.injEq, Prod.mk.injEq, ObjectEntry.file.injEq] at hm
      rw [hm.1.1, hm.1.2, ih hm.2]
  | directory a c rest ihc ih =>
    intro m hm
    cases m with
    | nil | file => cases hm
    | directory =>
      simp only [object, List.cons.injEq, Prod.mk.injEq, ObjectEntry.directory.injEq] at hm
      rw [hm.1.1, ihc (h.treeId_injective hm.1.2), ih hm.2]

/-- **Different trees have different ids.** -/
theorem idOf_injective : Function.Injective h.idOf := fun _ _ hid =>
  h.object_injective (h.treeId_injective hid)

theorem isEmpty_object (n : Node) : (h.object n).isEmpty = n.isEmpty := by
  cases n <;> rfl

@[simp] theorem findEntry_object (n : Node) (a : String) :
    (h.object n).findEntry a = (n.findEntry a).map h.entry := by
  induction n with
  | nil => rfl
  | file b f rest ih | directory b c rest _ ih =>
    rw [object, Node.findEntry, TreeObject.findEntry]
    by_cases hab : b = a
    · subst hab
      simp [entry, idOf]
    · rw [Table.lookup_cons_of_ne _ _ (Ne.symm hab), if_neg hab]
      exact ih

theorem removeEntry_object (n : Node) (a : String) :
    (h.object n).removeEntry a = h.object (n.removeEntry a) := by
  induction n with
  | nil => rfl
  | file b f rest ih | directory b c rest _ ih =>
    rw [Node.removeEntry, object, TreeObject.removeEntry, filter_cons]
    by_cases hab : b = a
    · simp only [hab]
      simpa [TreeObject.removeEntry] using ih
    · simp only [hab, ne_eq, not_false_eq_true, decide_true, if_true, if_false, object]
      rw [← ih, TreeObject.removeEntry]

theorem object_eq_map (n : Node) : h.object n = n.entries.map fun x => (x.1, h.entry x.2) := by
  induction n with
  | nil => rfl
  | file a f rest ih | directory a c rest _ ih =>
    rw [entries, map_cons, ← ih]
    rfl

variable {n : Node} {a : String}

variable {h} in
theorem mem_object (hn : n.Sorted) {x : ObjectEntry τ} :
    (a, x) ∈ h.object n ↔ ∃ e, n.findEntry a = some e ∧ h.entry e = x := by
  rw [object_eq_map, mem_map]
  constructor
  · rintro ⟨⟨b, e⟩, hmem, heq⟩
    cases heq
    exact ⟨e, (mem_entries hn).mp hmem, rfl⟩
  · rintro ⟨e, he, rfl⟩
    exact ⟨(a, e), (mem_entries hn).mpr he, rfl⟩

theorem sorted_object (hn : n.Sorted) : (h.object n).Pairwise fun x y => x.1 < y.1 := by
  induction n with
  | nil => exact .nil
  | file a f rest ih | directory a c rest _ ih =>
    rw [object, pairwise_cons]
    refine ⟨fun x hx => ?_, ih hn.2.2⟩
    obtain ⟨e, he, -⟩ := (mem_object hn.2.2).mp hx
    -- the rest has no entry of a name up to the first
    by_contra hle
    rcases (not_lt.mp hle).lt_or_eq with hlt | heq
    · rw [findEntry_eq_none_of_before hn.2.2 (hn.2.1.trans hlt)] at he
      cases he
    · rw [heq, findEntry_eq_none_of_before hn.2.2 hn.2.1] at he
      cases he

theorem sortEntries_object (hn : n.Sorted) : (h.object n).sortEntries = h.object n :=
  TreeObject.sortEntries_eq (.refl _) (h.sorted_object hn)

theorem replaceEntry_object (hn : n.Sorted) (e : Entry) (ha : n.findEntry a ≠ none) :
    TreeObject.replaceEntry a (h.entry e) (h.object n) = some (h.object (n.upsertEntry a e)) := by
  induction n with
  | nil => exact absurd rfl ha
  | file b f rest ih | directory b c rest _ ih =>
    rw [object, TreeObject.replaceEntry, Node.upsertEntry]
    by_cases hab : b = a
    · rw [if_pos hab, if_pos hab, object_cons]
    · rw [Node.findEntry, if_neg hab] at ha
      -- the name is in the rest, so it comes later
      have hlt : ¬ a < b := fun hlt =>
        ha (findEntry_eq_none_of_before hn.2.2 (hn.2.1.trans hlt))
      rw [if_neg hab, if_neg hab, if_neg hlt, ih hn.2.2 ha]
      rfl

theorem replaceEntry_object_eq_none (e : Entry) (ha : n.findEntry a = none) :
    TreeObject.replaceEntry a (h.entry e) (h.object n) = none := by
  induction n with
  | nil => rfl
  | file b f rest ih | directory b c rest _ ih =>
    rw [Node.findEntry] at ha
    split_ifs at ha with hab
    rw [object, TreeObject.replaceEntry, if_neg hab, ih ha]
    rfl

theorem perm_object_upsertEntry (e : Entry) (ha : n.findEntry a = none) :
    (h.object n ++ [(a, h.entry e)]).Perm (h.object (n.upsertEntry a e)) := by
  induction n with
  | nil =>
    rw [Node.upsertEntry, object_cons]
    exact .refl _
  | file b f rest ih | directory b c rest _ ih =>
    rw [Node.findEntry] at ha
    split_ifs at ha with hab
    rw [Node.upsertEntry, if_neg hab]
    split_ifs
    · rw [object_cons]
      exact perm_append_singleton _ _
    · exact (ih ha).cons _

variable {e : Entry}

theorem upsertEntry_object (hn : n.Sorted) (a : String) (he : e.Sorted) :
    (h.object n).upsertEntry a (h.entry e) = h.object (n.upsertEntry a e) := by
  have hsorted : (n.upsertEntry a e).Sorted := WellFormed.upsertEntry hn trivial he
  rw [TreeObject.upsertEntry]
  cases ha : n.findEntry a with
  | none =>
    rw [h.replaceEntry_object_eq_none e ha]
    exact TreeObject.sortEntries_eq (h.perm_object_upsertEntry e ha) (h.sorted_object hsorted)
  | some d =>
    rw [h.replaceEntry_object hn e (by simp [ha])]
    exact h.sortEntries_object hsorted

/-! ## Held trees -/

/-- The id is that of the tree. The empty tree has two: its own, and the id that is not set. -/
def Names (t : τ) (n : Node) : Prop := t = h.idOf n ∨ t = h.unset ∧ n = .nil

variable {h} in
theorem Names.unique {t : τ} {n' : Node} (hn : h.Names t n) (hn' : h.Names t n') : n = n' := by
  rcases hn with rfl | ⟨rfl, rfl⟩
  · rcases hn' with heq | ⟨hunset, -⟩
    · exact h.idOf_injective heq
    · exact absurd hunset (h.idOf_ne_unset n)
  · rcases hn' with heq | ⟨-, rfl⟩
    · exact absurd heq.symm (h.idOf_ne_unset n')
    · rfl

/-- Every node of the tree is stored under its id. -/
def Holds (view : τ → Option (TreeObject τ)) (n : Node) : Prop :=
  ∀ p c, n.getEntry p = some (.directory c) → view (h.idOf c) = some (h.object c)

/-- Every node of the tree under an entry is stored under its id. -/
def HoldsEntry (view : τ → Option (TreeObject τ)) (e : Entry) : Prop :=
  ∀ p c, e.under p = some (.directory c) → view (h.idOf c) = some (h.object c)

/-- What is stored is stored under its id, and the empty node is. -/
structure Sound (view : τ → Option (TreeObject τ)) : Prop where
  key : ∀ t l, view t = some l → t = h.treeId l
  empty : view h.emptyRootId = some []

section Holds

variable {view view' : τ → Option (TreeObject τ)} {h} {n : Node}

theorem Holds.mono (hgrows : ∀ t l, view t = some l → view' t = some l) (hn : h.Holds view n) :
    h.Holds view' n := fun p c hp => hgrows _ _ (hn p c hp)

theorem Holds.root (hn : h.Holds view n) : view (h.idOf n) = some (h.object n) := hn [] n rfl

theorem Sound.holds_nil (hview : h.Sound view) : h.Holds view .nil := by
  intro p c hp
  cases p with
  | nil =>
    cases hp
    exact hview.empty
  | cons a p => simp at hp

theorem Holds.findEntry (hn : h.Holds view n) {a : String} (he : n.findEntry a = some e) :
    h.HoldsEntry view e := by
  intro p c hp
  refine hn (a :: p) c ?_
  rw [getEntry_cons, he]
  exact hp

theorem Holds.getEntry (hn : h.Holds view n) {p : List String}
    (he : n.getEntry p = some e) : h.HoldsEntry view e := by
  intro q c hq
  refine hn (p ++ q) c ?_
  rw [getEntry_append, he]
  exact hq

theorem Holds.child (hview : h.Sound view) (hn : h.Holds view n) (a : String) :
    h.Holds view (n.child a) := by
  rw [Node.child]
  split
  · rename_i c hc
    exact hn.findEntry hc
  · exact hview.holds_nil

theorem holds_of_entries (hroot : view (h.idOf n) = some (h.object n))
    (hentries : ∀ a e, n.findEntry a = some e → h.HoldsEntry view e) : h.Holds view n := by
  intro p c hp
  cases p with
  | nil =>
    cases hp
    exact hroot
  | cons a p =>
    rw [getEntry_cons] at hp
    obtain ⟨e, he, hc⟩ := Option.bind_eq_some_iff.mp hp
    exact hentries a e he p c hc

/-- The entries of the node are held; the node itself need not be stored. -/
def HoldsEntries (h : TreeHash τ) (view : τ → Option (TreeObject τ)) (n : Node) : Prop :=
  ∀ a e, n.findEntry a = some e → h.HoldsEntry view e

theorem Holds.entries (hn : h.Holds view n) : h.HoldsEntries view n := fun _ _ he =>
  hn.findEntry he

theorem HoldsEntries.upsertEntry (hn : h.HoldsEntries view n) (he : h.HoldsEntry view e)
    (a : String) : h.HoldsEntries view (n.upsertEntry a e) := by
  intro b d hd
  rw [findEntry_upsertEntry] at hd
  split_ifs at hd
  · cases hd
    exact he
  · exact hn b d hd

theorem HoldsEntries.removeEntry (hn : h.HoldsEntries view n) (a : String) :
    h.HoldsEntries view (n.removeEntry a) := by
  intro b d hd
  rw [findEntry_removeEntry] at hd
  split_ifs at hd
  exact hn b d hd

theorem Holds.directory {c : Node} (hc : h.Holds view c) : h.HoldsEntry view (.directory c) := hc

theorem holdsEntry_file (f : FileEntry) : h.HoldsEntry view (.file f) := by
  intro p c hp
  cases p with
  | nil | cons => cases hp

end Holds

end TreeHash

/-! ## Buffers -/

namespace Buffering

variable {τ : Type} [DecidableEq τ]

theorem get_put (b : Buffering τ) (t : τ) (l : TreeObject τ) (t' : τ) :
    (b.put t l).get t' = if t' = t then some l else b.get t' := by
  rw [get, put, Table.get_set]
  split_ifs with h
  · rfl
  · rfl

theorem get_flush (b : Buffering τ) (t : τ) : b.flush.get t = b.get t := by
  rw [flush, Table.get_foldl_set_of_nodup b.writes.nodup, get]
  show (b.writes.get t).or (b.base.get t) = _
  cases b.writes.get t with
  | none => rfl
  | some l => rfl

end Buffering

namespace TreeHash

variable {τ : Type} [DecidableEq τ] (h : TreeHash τ)

/-- A buffer after more code: it shows what it showed, and more nodes under their ids. -/
structure Grew (b b' : Buffering τ) : Prop where
  base : b'.base = b.base
  sound : h.Sound b'.get
  keeps : ∀ t l, b.get t = some l → b'.get t = some l

theorem growth : Growth h.Grew where
  trans h₁ h₂ := ⟨h₂.base.trans h₁.base, h₂.sound, fun t l hl => h₂.keeps t l (h₁.keeps t l hl)⟩
  stay h₁ := ⟨rfl, h₁.sound, fun _ _ hl => hl⟩

section Refines

variable {h} {b : Buffering τ}

theorem Sound.grew (hb : h.Sound b.get) : h.Grew b b := ⟨rfl, hb, fun _ _ hl => hl⟩

theorem grew_put (hb : h.Sound b.get) (l : TreeObject τ) : h.Grew b (b.put (h.treeId l) l) := by
  have hkeeps : ∀ t k, b.get t = some k → (b.put (h.treeId l) l).get t = some k := by
    intro t k hk
    rw [Buffering.get_put]
    split_ifs with ht
    · -- what was there has the same id, so it is the same node
      rw [h.treeId_injective (ht.symm.trans (hb.key t k hk))]
    · exact hk
  refine ⟨rfl, ⟨?_, hkeeps _ _ hb.empty⟩, hkeeps⟩
  intro t k hk
  rw [Buffering.get_put] at hk
  split_ifs at hk with ht
  · cases hk
    exact ht
  · exact hb.key t k hk

variable {n : Node} {b' : Buffering τ}

theorem Grew.holds (hg : h.Grew b b') (hn : h.Holds b.get n) :
    h.Holds b'.get n := hn.mono hg.keeps

theorem HoldsEntries.mono (hg : h.Grew b b') (hn : h.HoldsEntries b.get n) :
    h.HoldsEntries b'.get n := fun a e he p c hp =>
  hg.keeps _ _ (hn a e he p c hp)

/-! ## Reading and writing -/

variable {t : τ}

theorem readNode_run (ht : h.Names t n) (hn : n.Sorted) (hheld : h.Holds b.get n) :
    (h.readNode t).run.run b = (.ok (h.object n), b) := by
  by_cases hempty : t = h.unset ∨ t = h.emptyRootId
  · -- both ids are those of the empty tree
    have hnil : n = .nil := by
      rcases ht with rfl | ⟨-, rfl⟩
      · rcases hempty with hunset | hroot
        · exact absurd hunset (h.idOf_ne_unset n)
        · exact h.idOf_injective hroot
      · rfl
    subst hnil
    simp only [readNode, if_pos hempty]
    rfl
  · obtain rfl : t = h.idOf n := ht.resolve_right fun hu => hempty (.inl hu.1)
    simp only [readNode, if_neg hempty]
    have hget (f : Buffering τ → TreeM τ (TreeObject τ)) : (get >>= f).run.run b =
        (f b).run.run b := rfl
    rw [hget, hheld.root]
    dsimp only
    rw [h.sortEntries_object hn]
    rfl

theorem writeNode_gives (hn : n.Sorted) (hb : h.Sound b.get) (hheld : h.HoldsEntries b.get n) :
    Gives h.Grew (h.writeNode (h.object n)) b (.ok n) h.idOf fun b' n' => h.Holds b'.get n' := by
  have hgrew := grew_put hb (h.object n)
  refine ⟨b.put (h.idOf n) (h.object n), ?_, hgrew, ?_⟩
  · simp only [writeNode, h.sortEntries_object hn]
    rfl
  · rintro n' ⟨⟩
    refine holds_of_entries ?_ (hheld.mono hgrew)
    rw [Buffering.get_put, if_pos rfl]

theorem writeChild_gives {m : TreeM τ τ} {r : Except TreeError Node} (hn : n.Sorted) (a : String)
    (hheld : h.HoldsEntries b.get n) (hr : ∀ c, r = .ok c → c.Sorted)
    (hm : Gives h.Grew m b r h.idOf fun b' c => h.Holds b'.get c) :
    Gives h.Grew (m >>= fun c => h.writeNode ((h.object n).upsertEntry a (.directory c))) b
      (r >>= fun c => pure (n.upsertEntry a (.directory c))) h.idOf fun b' n' => h.Holds b'.get n' := by
  refine Gives.bind h.growth hm ?_
  intro c b' hc hgrew hheld'
  show Gives h.Grew (h.writeNode ((h.object n).upsertEntry a (h.entry (.directory c)))) b' _ _ _
  have hdirectory : (Entry.directory c).Sorted := hr c hc
  rw [h.upsertEntry_object hn a hdirectory]
  exact writeNode_gives (WellFormed.upsertEntry hn trivial hdirectory) hgrew.sound
    ((hheld.mono hgrew).upsertEntry hheld'.directory a)

/-- **Writing at a path.** -/
theorem setAt_gives (required : String) (ht : h.Names t n) (hn : n.Sorted) (he : e.Sorted)
    (p : List String) (hb : h.Sound b.get) (hheld : h.Holds b.get n)
    (hentry : h.HoldsEntry b.get e) :
    Gives h.Grew (h.setAt required t p (h.entry e)) b (Node.setAt required n p e) h.idOf
      fun b' n' => h.Holds b'.get n' := by
  induction p generalizing t n with
  | nil => exact Gives.throw hb.grew
  | cons a p ih =>
    cases p with
    | nil =>
      refine Gives.read (readNode_run ht hn hheld) ?_
      rw [h.upsertEntry_object hn a he]
      exact writeNode_gives (WellFormed.upsertEntry hn trivial he) hb
        (hheld.entries.upsertEntry hentry a)
    | cons x rest =>
      refine Gives.read (readNode_run ht hn hheld) ?_
      have hchild : (n.child a).Sorted := WellFormed.child hn a
      have hwrite := writeChild_gives hn a hheld.entries
        (fun c hc => WellFormed.setAt hchild (fun _ _ => trivial) he hc)
        (ih (.inl rfl) hchild (hheld.child hb a))
      rw [findEntry_object, Node.setAt]
      rw [Node.child] at hwrite ⊢
      generalize n.findEntry a = found at hwrite ⊢
      rcases found with _ | ⟨_ | _⟩
      · exact hwrite
      · exact Gives.throw hb.grew
      · exact hwrite

/-- **Making a directory.** -/
theorem setDirectory_gives (ht : h.Names t n) (hn : n.Sorted) (p : List String) (hb : h.Sound b.get)
    (hheld : h.Holds b.get n) :
    Gives h.Grew (h.setDirectory t p) b (Node.setDirectory n p) h.idOf
      fun b' n' => h.Holds b'.get n' := by
  induction p generalizing t n with
  | nil => exact Gives.throw hb.grew
  | cons a p ih =>
    cases p with
    | nil =>
      refine Gives.read (readNode_run ht hn hheld) ?_
      rw [findEntry_object, Node.setDirectory]
      cases hfind : n.findEntry a with
      | none =>
        have hnil : (Entry.directory .nil).Sorted := trivial
        show Gives h.Grew (h.writeNode ((h.object n).upsertEntry a (h.entry (.directory .nil)))) b _ _ _
        rw [h.upsertEntry_object hn a hnil]
        exact writeNode_gives (WellFormed.upsertEntry hn trivial hnil) hb
          (hheld.entries.upsertEntry hb.holds_nil.directory a)
      | some d =>
        cases d with
        | file => exact Gives.throw hb.grew
        | directory =>
          -- a node with an entry is not the empty one
          obtain rfl : t = h.idOf n := by
            refine ht.resolve_right ?_
            rintro ⟨-, rfl⟩
            cases hfind
          exact Gives.pure rfl hb.grew hheld
    | cons x rest =>
      refine Gives.read (readNode_run ht hn hheld) ?_
      have hchild : (n.child a).Sorted := WellFormed.child hn a
      have hwrite := writeChild_gives hn a hheld.entries
        (fun c hc => WellFormed.setDirectory hchild (fun _ _ => trivial) hc)
        (ih (.inl rfl) hchild (hheld.child hb a))
      rw [findEntry_object, Node.setDirectory]
      rw [Node.child] at hwrite ⊢
      generalize n.findEntry a = found at hwrite ⊢
      rcases found with _ | ⟨_ | _⟩
      · exact hwrite
      · exact Gives.throw hb.grew
      · exact hwrite

/-- The result of the code on nodes, with the id for the node. -/
def named (h : TreeHash τ) (r : Node × Bool) : τ × Bool := (h.idOf r.1, r.2)

theorem pure_gives {r : Node × Bool} (hb : h.Sound b.get) (hheld : h.Holds b.get r.1) :
    Gives h.Grew (pure (h.named r) : TreeM τ (τ × Bool)) b (.ok r) h.named
      fun b' r => h.Holds b'.get r.1 :=
  Gives.pure rfl hb.grew hheld

theorem writeFlag_gives (hn : n.Sorted) (flag : Bool) (hb : h.Sound b.get)
    (hheld : h.HoldsEntries b.get n) :
    Gives h.Grew (do return (← h.writeNode (h.object n), flag)) b (.ok (n, flag)) h.named
      fun b' r => h.Holds b'.get r.1 := by
  refine Gives.bind h.growth (writeNode_gives hn hb hheld) (g := fun n' => .ok (n', flag)) ?_
  intro n' b' _ hgrew hheld'
  exact pure_gives (r := (n', flag)) hgrew.sound hheld'

/-- **Deleting.** -/
theorem deletePath_gives (hn : n.Sorted) (p : List String) (hb : h.Sound b.get)
    (hheld : h.Holds b.get n) :
    Gives h.Grew (h.deletePath (h.idOf n) p) b (.ok (n.deletePath p)) h.named
      fun b' r => h.Holds b'.get r.1 := by
  have hstays : Gives h.Grew (pure (h.idOf n, false) : TreeM τ (τ × Bool)) b (.ok (n, false)) h.named
      fun b' r => h.Holds b'.get r.1 := pure_gives (r := (n, false)) hb hheld
  induction p generalizing n with
  | nil => exact hstays
  | cons a p ih =>
    cases p with
    | nil =>
      refine Gives.read (readNode_run (.inl rfl) hn hheld) ?_
      rw [findEntry_object, Node.deletePath]
      cases hfind : n.findEntry a with
      | none => exact hstays
      | some d =>
        rw [removeEntry_object, isEmpty_object]
        exact writeFlag_gives (WellFormed.removeEntry hn a) _ hb (hheld.entries.removeEntry a)
    | cons x rest =>
      refine Gives.read (readNode_run (.inl rfl) hn hheld) ?_
      rw [findEntry_object, Node.deletePath]
      cases hfind : n.findEntry a with
      | none => exact hstays
      | some d =>
        cases d with
        | file => exact hstays
        | directory c =>
          have hc : c.Sorted := (WellFormed.findEntry hn hfind).2
          have hcheld : h.Holds b.get c := hheld.findEntry hfind
          have hbelow := ih hc hcheld (pure_gives (r := (c, false)) hb hcheld)
          -- the child is removed when the delete emptied it, and replaced otherwise
          refine Gives.bind h.growth hbelow (g := fun r =>
            .ok (let n' := if r.2 then n.removeEntry a else n.upsertEntry a (.directory r.1)
              (n', r.2 && n'.isEmpty))) ?_
          rintro ⟨c', emptied⟩ b' hr hgrew hheld'
          have hc' : (Entry.directory c').Sorted := by
            have hfst : (c.deletePath (x :: rest)).1 = c' := congrArg Prod.fst (Except.ok.inj hr)
            rw [← hfst]
            exact WellFormed.deletePath hc _
          have hentries := hheld.entries.mono hgrew
          cases emptied with
          | true =>
            dsimp only [named]
            rw [if_pos rfl, removeEntry_object, isEmpty_object]
            exact writeFlag_gives (WellFormed.removeEntry hn a) _ hgrew.sound
              (hentries.removeEntry a)
          | false =>
            show Gives h.Grew (do
              let t ← h.writeNode ((h.object n).upsertEntry a (h.entry (.directory c')))
              return (t, false)) b' _ _ _
            rw [h.upsertEntry_object hn a hc']
            exact writeFlag_gives (WellFormed.upsertEntry hn trivial hc') _ hgrew.sound
              (hentries.upsertEntry hheld'.directory a)

theorem deletePath_unset (p : List String) (b : Buffering τ) :
    (h.deletePath h.unset p).run.run b = (.ok (h.unset, false), b) := by
  have hread : (h.readNode h.unset).run.run b = (.ok [], b) := by
    simp only [readNode]
    rfl
  match p with
  | [] => rfl
  | [_] | _ :: _ :: _ =>
    rw [deletePath, run_bind_ok hread]
    rfl

/-- **Looking up.** -/
theorem entryAt_run (ht : h.Names t n) (hn : n.Sorted) (p : List String) (hheld : h.Holds b.get n) :
    (h.entryAt t p).run.run b =
      ((match n.entryAt p with
        | some e => .ok (h.entry e)
        | none => .error .notFound), b) := by
  induction p generalizing t n with
  | nil => rfl
  | cons a p ih =>
    have hread := readNode_run ht hn hheld
    cases p with
    | nil =>
      rw [entryAt, Node.entryAt, run_bind_ok hread, findEntry_object]
      cases n.findEntry a with
      | none => rfl
      | some e => rfl
    | cons x rest =>
      rw [entryAt, Node.entryAt, run_bind_ok hread, findEntry_object]
      cases hfind : n.findEntry a with
      | none => rfl
      | some e =>
        cases e with
        | file => rfl
        | directory =>
          exact ih (.inl rfl) (WellFormed.findEntry hn hfind).2 (hheld.findEntry hfind)

/-! ## Batches -/

/-- The accumulator of the code on nodes, with the stored form of the node. -/
def stored (h : TreeHash τ) (acc : Node × Bool) : TreeObject τ × Bool := (h.object acc.1, acc.2)

/-- The node of an accumulator is sorted, and its entries are held. -/
structure AccHeld (h : TreeHash τ) (b : Buffering τ) (acc : Node × Bool) : Prop where
  sorted : acc.1.Sorted
  entries : h.HoldsEntries b.get acc.1

variable {acc : Node × Bool}

section

variable (hacc : h.AccHeld b acc)
include hacc

theorem AccHeld.upsertEntry (a : String) (he : e.Sorted)
    (hheld : h.HoldsEntry b.get e) (flag : Bool) : h.AccHeld b (acc.1.upsertEntry a e, flag) :=
  ⟨WellFormed.upsertEntry hacc.sorted trivial he, hacc.entries.upsertEntry hheld a⟩

theorem AccHeld.removeEntry (a : String) (flag : Bool) :
    h.AccHeld b (acc.1.removeEntry a, flag) :=
  ⟨WellFormed.removeEntry hacc.sorted a, hacc.entries.removeEntry a⟩

theorem applyLeaf_stored (hb : h.Sound b.get) (e : BatchEdit) :
    h.applyLeaf (h.stored acc) e = (GitSlice.applyLeaf acc e).map h.stored ∧
      ∀ acc', GitSlice.applyLeaf acc e = .ok acc' → h.AccHeld b acc' := by
  have hstays : ∀ acc', (.ok acc : Except TreeError (Node × Bool)) = .ok acc' →
      h.AccHeld b acc' := by
    rintro acc' ⟨⟩
    exact hacc
  obtain ⟨op, parts⟩ := e
  rcases parts with - | ⟨a, - | -⟩
  · exact ⟨rfl, hstays⟩
  · have hfound : (h.stored acc).1.findEntry a = (acc.1.findEntry a).map h.entry :=
      h.findEntry_object _ a
    cases op with
    | upsert f =>
      refine ⟨?_, ?_⟩
      · have hupsert := h.upsertEntry_object hacc.sorted a (e := .file f) trivial
        simp only [GitSlice.applyLeaf, Except.map, stored]
        rw [← hupsert]
        rfl
      · rintro acc' ⟨⟩
        exact hacc.upsertEntry a (e := .file f) trivial (holdsEntry_file f) _
    | delete =>
      simp only [applyLeaf, GitSlice.applyLeaf, hfound]
      cases acc.1.findEntry a with
      | none => exact ⟨rfl, hstays⟩
      | some d =>
        refine ⟨?_, ?_⟩
        · show Except.ok ((h.object acc.1).removeEntry a, true) = _
          rw [removeEntry_object]
          rfl
        · rintro acc' ⟨⟩
          exact hacc.removeEntry a true
    | mkdir =>
      simp only [applyLeaf, GitSlice.applyLeaf, hfound]
      cases acc.1.findEntry a with
      | none =>
        refine ⟨?_, ?_⟩
        · have hupsert := h.upsertEntry_object hacc.sorted a (e := .directory .nil) trivial
          show Except.ok ((h.object acc.1).upsertEntry a (h.entry (.directory .nil)), acc.2) = _
          rw [hupsert]
          rfl
        · rintro acc' ⟨⟩
          exact hacc.upsertEntry a (e := .directory .nil) trivial hb.holds_nil.directory _
      | some d =>
        cases d with
        | file => exact ⟨rfl, by simp⟩
        | directory => exact ⟨rfl, hstays⟩
  · exact ⟨rfl, hstays⟩

theorem applyLeaves_stored (hb : h.Sound b.get) (edits : List BatchEdit) :
    edits.foldlM h.applyLeaf (h.stored acc) = (edits.foldlM GitSlice.applyLeaf acc).map h.stored ∧
      ∀ acc', edits.foldlM GitSlice.applyLeaf acc = .ok acc' → h.AccHeld b acc' := by
  induction edits generalizing acc with
  | nil =>
    refine ⟨rfl, ?_⟩
    rintro acc' ⟨⟩
    exact hacc
  | cons e edits ih =>
    obtain ⟨hleaf, hkeeps⟩ := applyLeaf_stored hacc hb e
    rw [foldlM_cons, foldlM_cons, hleaf]
    cases hacc' : GitSlice.applyLeaf acc e with
    | error => exact ⟨rfl, by simp [bind, Except.bind]⟩
    | ok acc' => exact ih (hkeeps acc' hacc')

theorem stored_gives (hb : h.Sound b.get) :
    Gives h.Grew (pure (h.stored acc) : TreeM τ (TreeObject τ × Bool)) b (.ok acc) h.stored h.AccHeld :=
  Gives.pure rfl hb.grew hacc

theorem applyChild_gives {recurse : Node → List BatchEdit → Except TreeError (Node × Bool)}
    {recurse' : τ → List BatchEdit → TreeM τ (τ × Bool)} (hb : h.Sound b.get)
    (hrec : ∀ c edits, c.Sorted → h.Holds b.get c →
      Gives h.Grew (recurse' (h.idOf c) edits) b (recurse c edits) h.named
        fun b' r => r.1.Sorted ∧ h.Holds b'.get r.1) (edits : List BatchEdit) (a : String) :
    Gives h.Grew (h.applyChild recurse' edits (h.stored acc) a) b
      (GitSlice.applyChild recurse edits acc a) h.stored h.AccHeld := by
  have hfound : (h.stored acc).1.findEntry a = (acc.1.findEntry a).map h.entry :=
    h.findEntry_object _ a
  have hstays := stored_gives hacc hb
  have hchild : (acc.1.child a).Sorted := WellFormed.child hacc.sorted a
  have hchildHeld : h.Holds b.get (acc.1.child a) := by
    rw [Node.child]
    split
    · rename_i c hc
      exact hacc.entries a _ hc
    · exact hb.holds_nil
  -- the edits on the child, and the entry for what they leave
  have hwithin : Gives h.Grew (do
      let r ← recurse' (h.idOf (acc.1.child a)) (childEdits edits a)
      if r.2 then return ((h.stored acc).1.removeEntry a, true)
      else return ((h.stored acc).1.upsertEntry a (.directory r.1), (h.stored acc).2)) b
      (do
        let r ← recurse (acc.1.child a) (childEdits edits a)
        if r.2 then return (acc.1.removeEntry a, true)
        else return (acc.1.upsertEntry a (.directory r.1), acc.2)) h.stored h.AccHeld := by
    refine Gives.bind h.growth (hrec _ (childEdits edits a) hchild hchildHeld) ?_
    rintro ⟨c, emptied⟩ b' _ hgrew ⟨hc, hheld⟩
    have hacc' : h.AccHeld b' acc := ⟨hacc.sorted, hacc.entries.mono hgrew⟩
    have hdirectory : (Entry.directory c).Sorted := hc
    cases emptied with
    | true =>
      show Gives h.Grew (pure ((h.object acc.1).removeEntry a, true) : TreeM τ (TreeObject τ × Bool)) b'
        (.ok (acc.1.removeEntry a, true)) h.stored h.AccHeld
      rw [removeEntry_object]
      exact stored_gives (hacc'.removeEntry a true) hgrew.sound
    | false =>
      show Gives h.Grew (pure ((h.object acc.1).upsertEntry a (h.entry (.directory c)), acc.2) :
          TreeM τ (TreeObject τ × Bool)) b'
        (.ok (acc.1.upsertEntry a (.directory c), acc.2)) h.stored h.AccHeld
      rw [h.upsertEntry_object hacc.sorted a hdirectory]
      exact stored_gives (hacc'.upsertEntry a hdirectory hheld.directory acc.2) hgrew.sound
  rw [applyChild, GitSlice.applyChild]
  rw [hfound]
  rw [Node.child] at hwithin ⊢
  generalize acc.1.findEntry a = found at hwithin ⊢
  rcases found with _ | ⟨_ | _⟩
  · by_cases hdeletes : ((childEdits edits a).all fun e => e.op == .delete) = true
    · simp only [hdeletes]
      exact hstays
    · simp only [hdeletes]
      exact hwithin
  · by_cases hdeletes : ((childEdits edits a).all fun e => e.op == .delete) = true
    · simp only [hdeletes]
      exact hstays
    · simp only [hdeletes]
      exact Gives.throw hb.grew
  · exact hwithin

end

/-- **A batch.** -/
theorem applyBatchTo_gives (depth : Nat) (ht : h.Names t n) (hn : n.Sorted) (edits : List BatchEdit)
    (hb : h.Sound b.get) (hheld : h.Holds b.get n) :
    Gives h.Grew (h.applyBatchTo depth t edits) b (GitSlice.applyBatchTo depth n edits) h.named
      fun b' r => r.1.Sorted ∧ h.Holds b'.get r.1 := by
  induction depth generalizing t n edits b with
  | zero =>
    refine Gives.read (readNode_run ht hn hheld) ?_
    refine (writeFlag_gives hn false hb hheld.entries).mono ?_
    rintro b' r ⟨⟩ _ hheld'
    exact ⟨hn, hheld'⟩
  | succ depth ih =>
    refine Gives.read (readNode_run ht hn hheld) ?_
    have hstart : h.AccHeld b (n, false) := ⟨hn, hheld.entries⟩
    obtain ⟨hleaves, hkeeps⟩ := applyLeaves_stored hstart hb edits
    have hfirst : Gives h.Grew (liftExcept (edits.foldlM h.applyLeaf (h.object n, false)) :
        TreeM τ (TreeObject τ × Bool)) b (edits.foldlM GitSlice.applyLeaf (n, false)) h.stored
        h.AccHeld := ⟨b, congrArg (·, b) hleaves, hb.grew, hkeeps⟩
    refine Gives.bind h.growth hfirst ?_
    intro acc b₁ _ hgrew₁ hacc
    have hsecond : Gives h.Grew ((childNames edits).foldlM
        (h.applyChild (h.applyBatchTo depth) edits) (h.stored acc)) b₁
        ((childNames edits).foldlM (GitSlice.applyChild (GitSlice.applyBatchTo depth) edits) acc)
        h.stored h.AccHeld := by
      refine Gives.foldlM h.growth ?_ hgrew₁.sound.grew hacc
      intro a _ acc' b' hb' hacc'
      exact applyChild_gives hacc' hb'.sound (fun c es hc hch => ih (.inl rfl) hc es hb'.sound hch)
        edits a
    refine Gives.bind h.growth hsecond ?_
    intro acc' b₂ _ hgrew₂ hacc'
    show Gives h.Grew (do
      return (← h.writeNode (h.object acc'.1), acc'.2 && (h.object acc'.1).isEmpty)) b₂ _ _ _
    rw [isEmpty_object]
    refine (writeFlag_gives hacc'.sorted _ hgrew₂.sound hacc'.entries).mono ?_
    rintro b' r ⟨⟩ _ hheld'
    exact ⟨hacc'.sorted, hheld'⟩

end Refines

end TreeHash

end GitSlice
