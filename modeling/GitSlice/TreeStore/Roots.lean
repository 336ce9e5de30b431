import GitSlice.TreeStore.Stored

/-! # Roots
What `ApplyEdits` and `ApplyEditChain` return, over whole sessions. Every root is the id of a tree
that is held by the object store (`SessionSound`), so it verifies; its id is a function of the tree,
so it tells nothing of the calls that made it. -/

namespace GitSlice

open Node List

/-- The file has a blob id, a content hash and a mode. -/
def FileEntry.Complete (f : FileEntry) : Prop := f.blobId ≠ "" ∧ f.contentHash ≠ "" ∧ f.mode ≠ 0

instance (f : FileEntry) : Decidable f.Complete :=
  inferInstanceAs (Decidable (f.blobId ≠ "" ∧ f.contentHash ≠ "" ∧ f.mode ≠ 0))

/-- A file that the edit writes is complete. -/
def Edit.Complete : TreeEdit → Prop
  | .upsert _ f => f.Complete
  | _ => True

instance (e : TreeEdit) : Decidable e.Complete := by
  unfold Edit.Complete
  split <;> infer_instance

namespace TreeHash

variable {τ : Type} {h : TreeHash τ}

/-! ## Edits of a root -/

/-- What a `setEntry` leaves whose error is not looked at. -/
def settled (h : TreeHash τ) : Except TreeError Node → τ × Node
  | .ok n => (h.idOf n, n)
  | .error _ => (h.unset, .nil)

theorem names_settled (r : Except TreeError Node) : h.Names (h.settled r).1 (h.settled r).2 := by
  cases r with
  | ok => exact .inl rfl
  | error => exact .inr ⟨rfl, rfl⟩

theorem settled_snd (r : Except TreeError Node) : (h.settled r).2 = Edit.ignoringError r := by
  cases r with
  | ok => rfl
  | error => rfl

variable [DecidableEq τ] {n : Node} {t : τ} {objects : Table τ (TreeObject τ)}

/-- Code on a root. Its result is the id of what the code on nodes returns, and depends on the
buffer only in that the tree is held. -/
def Refines (h : TreeHash τ) (m : TreeM τ τ) (n : Node) (r : Except TreeError Node) : Prop :=
  ∃ s : Except TreeError (τ × Node), s.map Prod.snd = r ∧ (∀ x, s = .ok x → h.Names x.1 x.2) ∧
    ∀ b, h.Sound b.get → h.Holds b.get n →
      Gives h.Grew m b s Prod.fst fun b' x => h.Holds b'.get x.2

variable {r : Except TreeError Node} {m : TreeM τ τ}

theorem refines_of_gives
    (hm : ∀ b, h.Sound b.get → h.Holds b.get n →
      Gives h.Grew m b r h.idOf fun b' n' => h.Holds b'.get n') : h.Refines m n r := by
  refine ⟨r.map fun n' => (h.idOf n', n'), ?_, ?_, ?_⟩
  · cases r with
    | error => rfl
    | ok => rfl
  · intro x hx
    cases r with
    | error => cases hx
    | ok =>
      cases hx
      exact .inl rfl
  · intro b hb hn
    obtain ⟨b', hrun, hgrew, hheld⟩ := hm b hb hn
    cases r with
    | error => exact ⟨b', hrun, hgrew, nofun⟩
    | ok n' =>
      refine ⟨b', hrun, hgrew, ?_⟩
      rintro x ⟨⟩
      exact hheld n' rfl

theorem refines_settled
    (hm : ∀ b, h.Sound b.get → h.Holds b.get n →
      Gives h.Grew m b (.ok (h.settled r)) Prod.fst fun b' x => h.Holds b'.get x.2) :
    h.Refines m n (.ok (Edit.ignoringError r)) := by
  refine ⟨.ok (h.settled r), congrArg Except.ok (settled_snd r), ?_, hm⟩
  rintro x ⟨⟩
  exact names_settled r

theorem Refines.bind {f : τ → TreeM τ τ} {g : Node → Except TreeError Node} (hm : h.Refines m n r)
    (hf : ∀ t n', r = .ok n' → h.Names t n' → h.Refines (f t) n' (g n')) :
    h.Refines (m >>= f) n (r >>= g) := by
  obtain ⟨s, rfl, hnames, hgives⟩ := hm
  cases s with
  | error e =>
    refine ⟨.error e, rfl, nofun, fun b hb hn => ?_⟩
    exact Gives.bind h.growth (hgives b hb hn) (g := fun _ => .error e) nofun
  | ok x =>
    obtain ⟨s', hs', hnames', hgives'⟩ := hf x.1 x.2 rfl (hnames x rfl)
    refine ⟨s', hs', hnames', fun b hb hn => ?_⟩
    refine Gives.bind h.growth (hgives b hb hn) (g := fun _ => s') ?_
    rintro y b' ⟨⟩ hgrew hheld
    exact hgives' b' hgrew.sound hheld

variable {b : Buffering τ}

theorem ignoringError_gives (hn : n.Sorted) {e : Entry} (he : e.Sorted) (p : List String)
    (hb : h.Sound b.get) (hheld : h.Holds b.get n) (hentry : h.HoldsEntry b.get e) :
    Gives h.Grew (h.ignoringError (h.setEntry (h.idOf n) p (h.entry e))) b
      (.ok (h.settled (n.setEntry p e))) Prod.fst fun b' x => h.Holds b'.get x.2 := by
  obtain ⟨b', hrun, hgrew, hheld'⟩ := setAt_gives "path is required" (.inl rfl) hn he p hb hheld hentry
  have hset : (h.ignoringError (h.setEntry (h.idOf n) p (h.entry e))).run.run b =
      (.ok (h.settled (n.setEntry p e)).1, b') := by
    rw [ignoringError, run_tryCatch, setEntry, hrun, Node.setEntry]
    cases Node.setAt "path is required" n p e with
    | ok => rfl
    | error => rfl
  refine ⟨b', hset, hgrew, ?_⟩
  rintro x ⟨⟩
  cases hr : n.setEntry p e with
  | ok n' => exact hheld' n' hr
  | error => exact hgrew.sound.holds_nil

variable {e : TreeEdit} {n' : Node}

theorem sorted_apply (hn : n.Sorted) (h : e.apply n = .ok n') : n'.Sorted :=
  Edit.wellFormed_apply ⟨fun _ _ _ _ => trivial, fun _ _ _ => trivial⟩ h hn

section

variable (ht : h.Names t n)
include ht

theorem refines_pure : h.Refines (pure t : TreeM τ τ) n (.ok n) := by
  refine ⟨.ok (t, n), rfl, ?_, fun b hb hn => Gives.pure rfl hb.grew hn⟩
  rintro x ⟨⟩
  exact ht

theorem refines_entryAt (hn : n.Sorted) {p : List String} {f : ObjectEntry τ → TreeM τ τ}
    {g : Entry → Except TreeError Node}
    (hx : ∀ x, n.entryAt p = some x → h.Refines (f (h.entry x)) n (g x)) :
    h.Refines (h.entryAt t p >>= f) n
      (match n.entryAt p with
      | none => .error .notFound
      | some x => g x) := by
  cases he : n.entryAt p with
  | none =>
    refine ⟨.error .notFound, rfl, nofun, fun b hb hheld => ?_⟩
    have hrun := entryAt_run ht hn p hheld
    rw [he] at hrun
    exact ⟨b, run_bind_error hrun, hb.grew, nofun⟩
  | some x =>
    obtain ⟨s, hs, hnames, hgives⟩ := hx x he
    refine ⟨s, hs, hnames, fun b hb hheld => ?_⟩
    have hrun := entryAt_run ht hn p hheld
    rw [he] at hrun
    exact Gives.read hrun (hgives b hb hheld)

theorem applyEdit_refines (hn : n.Sorted) (e : TreeEdit) :
    h.Refines (h.applyEdit t e) n (e.apply n) := by
  -- an entry is found in a tree that is not empty, whose id is its own
  have hfound : ∀ {p x}, n.entryAt p = some x → t = h.idOf n := by
    intro p x hx
    refine ht.resolve_right ?_
    rintro ⟨-, rfl⟩
    cases p with
    | nil => cases hx
    | cons a p => cases p <;> cases hx
  cases e with
  | mkdir => exact refines_of_gives fun b hb hheld => setDirectory_gives ht hn _ hb hheld
  | upsert p f =>
    exact refines_of_gives fun b hb hheld =>
      setAt_gives _ ht hn (e := .file f) trivial _ hb hheld (holdsEntry_file f)
  | delete =>
    rcases ht with rfl | ⟨rfl, rfl⟩
    · refine refines_of_gives fun b hb hheld => ?_
      refine Gives.bind h.growth (deletePath_gives hn _ hb hheld) (g := fun r => .ok r.1) ?_
      intro r b' _ hgrew hheld'
      exact Gives.pure rfl hgrew.sound.grew hheld'
    · refine ⟨.ok (h.unset, .nil), ?_, ?_, fun b hb hheld => ?_⟩
      · rw [Edit.apply, deletePath_nil]
        rfl
      · rintro x ⟨⟩
        exact .inr ⟨rfl, rfl⟩
      · refine Gives.read (deletePath_unset _ b) ?_
        exact Gives.pure rfl hb.grew hheld
  | rename old p =>
    refine refines_entryAt ht hn fun x hx => refines_settled fun b hb hheld => ?_
    obtain rfl := hfound hx
    have hentry := (Edit.getEntry_of_entryAt hx).2
    refine Gives.bind h.growth (deletePath_gives hn _ hb hheld)
      (g := fun r => .ok (h.settled (r.1.setEntry (splitPath p) x))) ?_
    intro r b' hr hgrew hheld'
    have hr' : n.deletePath (splitPath old) = r := Except.ok.inj hr
    exact ignoringError_gives (hr' ▸ WellFormed.deletePath hn _) (hn.getEntry hentry).2 _
      hgrew.sound hheld' ((hgrew.holds hheld).getEntry hentry)
  | copy =>
    refine refines_entryAt ht hn fun x hx => refines_settled fun b hb hheld => ?_
    obtain rfl := hfound hx
    have hentry := (Edit.getEntry_of_entryAt hx).2
    exact ignoringError_gives hn (hn.getEntry hentry).2 _ hb hheld (hheld.getEntry hentry)

theorem applyEditsSequential_refines (hn : n.Sorted) (edits : List TreeEdit) :
    h.Refines (h.applyEditsSequential t edits) n (GitSlice.applyEditsSequential n edits) := by
  induction edits generalizing t n with
  | nil => exact refines_pure ht
  | cons e edits ih =>
    refine Refines.bind (applyEdit_refines ht hn e) ?_
    intro t' n' hn' ht'
    exact ih ht' (sorted_apply hn hn')

/-- **An edit set.** -/
theorem applyEditSet_refines (hn : n.Sorted) (edits : List TreeEdit) :
    h.Refines (h.applyEditSet t edits) n (GitSlice.applyEditSet n edits) := by
  rw [applyEditSet, GitSlice.applyEditSet]
  split_ifs
  · exact refines_pure ht
  · refine refines_of_gives fun b hb hheld => ?_
    cases edits.mapM Edit.toBatch with
    | error => exact Gives.throw hb.grew
    | ok ops =>
      have hbatch : Gives h.Grew (do return (← h.applyBatch t ops).1) b
          (do return (← GitSlice.applyBatch n ops).1) h.idOf fun b' n' => h.Holds b'.get n' := by
        refine Gives.bind h.growth (applyBatchTo_gives _ ht hn ops hb hheld) ?_
        intro r b' _ hgrew hr
        exact Gives.pure rfl hgrew.sound.grew hr.2
      exact Gives.read rfl hbatch
  · exact applyEditsSequential_refines ht hn edits

end

/-! ## Calls -/

theorem Grew.flush (hgrew : h.Grew (.new objects) b) :
    h.Sound b.flush.get ∧ objects.Extends b.flush ∧
      ∀ n, h.Holds b.get n → h.Holds b.flush.get n := by
  have hflush : b.flush.get = b.get := funext b.get_flush
  rw [Table.Extends, hflush]
  exact ⟨hgrew.sound, hgrew.keeps, fun _ hn => hn⟩

variable {edits : List TreeEdit}

theorem applyEdits_run (hobjects : h.Sound objects.get) {s : Except TreeError (τ × Node)}
    (hs : Gives h.Grew (h.applyEditSet t edits) (.new objects) s Prod.fst
      fun b' x => h.Holds b'.get x.2) :
    (h.applyEdits objects t edits).1 = s.map Prod.fst ∧
      h.Sound (h.applyEdits objects t edits).2.get ∧
      objects.Extends (h.applyEdits objects t edits).2 ∧
      ∀ x, s = .ok x → h.Holds (h.applyEdits objects t edits).2.get x.2 := by
  obtain ⟨b, hrun, hgrew, hheld⟩ := hs
  rw [applyEdits, hrun]
  cases s with
  | error => exact ⟨rfl, hobjects, .refl _, nofun⟩
  | ok =>
    obtain ⟨hsound, hext, hflush⟩ := hgrew.flush
    exact ⟨rfl, hsound, hext, fun y hy => hflush y.2 (hheld y hy)⟩

/-- `ApplyEdits` on one edit set after the other: the root after each. -/
def foldEdits (h : TreeHash τ) (objects : Table τ (TreeObject τ)) (t : τ) :
    List (List TreeEdit) → Except TreeError (List τ) × Table τ (TreeObject τ)
  | [] => (.ok [], objects)
  | edits :: rest =>
    let call := h.applyEdits objects t edits
    match call.1 with
    | .error err => (.error err, call.2)
    | .ok t' =>
      let calls := foldEdits h call.2 t' rest
      (calls.1.map (t' :: ·), calls.2)

theorem sorted_applyEditSet (hn : n.Sorted) (h : GitSlice.applyEditSet n edits = .ok n') :
    n'.Sorted :=
  wellFormed_applyEditSet (fun _ _ => ⟨fun _ _ _ _ => trivial, fun _ _ _ => trivial⟩) h hn

/-- **A chain of edit sets**: one buffer for all of them, or one for each, gives the same ids. -/
theorem applyEditSets_refines (ht : h.Names t n) (hn : n.Sorted) (sets : List (List TreeEdit)) :
    ∃ s : Except TreeError (List (τ × Node)), s.map (List.map Prod.snd) =
      GitSlice.applyEditChain n sets ∧
      (∀ l, s = .ok l → ∀ x ∈ l, h.Names x.1 x.2) ∧
      (∀ b, h.Sound b.get → h.Holds b.get n →
        Gives h.Grew (h.applyEditSets t sets) b s (List.map Prod.fst)
          fun b' l => ∀ x ∈ l, h.Holds b'.get x.2) ∧
      ∀ objects : Table τ (TreeObject τ), h.Sound objects.get → h.Holds objects.get n →
        (h.foldEdits objects t sets).1 = s.map (List.map Prod.fst) := by
  induction sets generalizing t n with
  | nil =>
    refine ⟨.ok [], rfl, ?_, fun b hb _ => Gives.pure rfl hb.grew nofun, fun _ _ _ => rfl⟩
    rintro l ⟨⟩
    nofun
  | cons edits sets ih =>
    obtain ⟨s, hs, hnames, hgives⟩ := applyEditSet_refines ht hn edits
    cases s with
    | error err =>
      refine ⟨.error err, ?_, nofun, fun b hb hheld => ?_, fun objects ho hheld => ?_⟩
      · rw [GitSlice.applyEditChain, ← hs]
        rfl
      · exact Gives.bind h.growth (hgives b hb hheld) (g := fun _ => .error err) nofun
      · have hrun := (applyEdits_run ho (hgives (.new objects) ho hheld)).1
        simp only [foldEdits, hrun]
        rfl
    | ok x =>
      have hx := hnames x rfl
      have hsorted : x.2.Sorted := sorted_applyEditSet hn hs.symm
      obtain ⟨l, hl, hlnames, hlgives, hlfold⟩ := ih hx hsorted
      refine ⟨l.map (x :: ·), ?_, ?_, fun b hb hheld => ?_, fun objects ho hheld => ?_⟩
      · rw [GitSlice.applyEditChain, ← hs]
        show _ = (do
          let roots ← GitSlice.applyEditChain x.2 sets
          return x.2 :: roots)
        rw [← hl]
        cases l with
        | error => rfl
        | ok => rfl
      · intro k hk y hy
        cases l with
        | error => cases hk
        | ok l =>
          cases hk
          rcases mem_cons.mp hy with rfl | hy
          · exact hx
          · exact hlnames l rfl y hy
      · refine Gives.bind h.growth (hgives b hb hheld) (g := fun _ => l.map (x :: ·)) ?_
        rintro y b' ⟨⟩ hgrew hheld'
        refine Gives.bind h.growth (hlgives b' hgrew.sound hheld') ?_
        intro k b'' _ hgrew' hk
        refine Gives.pure rfl hgrew'.sound.grew ?_
        exact forall_mem_cons.mpr ⟨hgrew'.holds hheld', hk⟩
      · obtain ⟨hrun, hsound, -, hheld'⟩ := applyEdits_run ho (hgives (.new objects) ho hheld)
        simp only [foldEdits, hrun, Except.map]
        rw [hlfold _ hsound (hheld' x rfl)]
        cases l with
        | error => rfl
        | ok => rfl

/-! ## Verification -/

/-- Every object under the id is stored under its hash, with sorted entries of distinct proper names
and complete files. -/
inductive Intact (h : TreeHash τ) (objects : Table τ (TreeObject τ)) : τ → Prop where
  | node {l : TreeObject τ} (stored : objects.get (h.treeId l) = some l)
    (sorted : l.Pairwise fun x y => x.1 < y.1) (names : ∀ x ∈ l, validSegment x.1 = true)
    (files : ∀ a f, (a, .file f) ∈ l → f.Complete)
    (children : ∀ a c, (a, .directory c) ∈ l → Intact h objects c) : Intact h objects (h.treeId l)

theorem Intact.ne_unset (ht : h.Intact objects t) : t ≠ h.unset := by
  cases ht
  exact h.treeId_ne_unset _

theorem intact_idOf {n : Node} (hn : n.WellFormed (validSegment · = true) FileEntry.Complete)
    (hheld : h.Holds objects.get n) : h.Intact objects (h.idOf n) := by
  refine .node hheld.root (h.sorted_object hn.sorted) ?_ ?_ ?_
  · rintro ⟨a, x⟩ hx
    obtain ⟨e, he, -⟩ := (mem_object hn.sorted).mp hx
    exact (hn.findEntry he).1
  · intro a f hf
    obtain ⟨e, he, heq⟩ := (mem_object hn.sorted).mp hf
    cases e with
    | directory => cases heq
    | file =>
      cases heq
      exact (hn.findEntry he).2
  · intro a c hc
    obtain ⟨e, he, heq⟩ := (mem_object hn.sorted).mp hc
    cases e with
    | file => cases heq
    | directory =>
      cases heq
      exact intact_idOf (hn.findEntry he).2 (hheld.findEntry he)
termination_by sizeOf n
decreasing_by exact sizeOf_lt_of_findEntry he

theorem verifyEntries_ok {l : TreeObject τ}
    (hnames : (l.map Prod.fst).Nodup) (hvalid : ∀ x ∈ l, validSegment x.1 = true)
    (hfiles : ∀ a f, (a, .file f) ∈ l → f.Complete)
    (hchildren : ∀ a c, (a, .directory c) ∈ l → c ≠ h.unset ∧ ∃ enough, ∀ fuel ≥ enough,
      ∀ above depth report, ∃ report', h.verifyTree objects fuel c above depth report =
        .ok report') :
    ∃ enough, ∀ fuel ≥ enough, ∀ t above depth names report, (∀ x ∈ l, x.1 ∉ names) → ∃ report',
      h.verifyEntries (fun c path => h.verifyTree objects fuel c path depth) t above names l report =
        .ok report' := by
  induction l with
  | nil => exact ⟨0, fun _ _ _ _ _ _ report _ => ⟨report, rfl⟩⟩
  | cons x l ih =>
    obtain ⟨a, e⟩ := x
    rw [map_cons, nodup_cons] at hnames
    obtain ⟨enough, hrest⟩ := ih hnames.2 (fun x hx => hvalid x (mem_cons_of_mem _ hx))
      (fun b f hf => hfiles b f (mem_cons_of_mem _ hf))
      (fun b c hc => hchildren b c (mem_cons_of_mem _ hc))
    have hafter : ∀ {names : List String}, (∀ x ∈ (a, e) :: l, x.1 ∉ names) →
        ∀ x ∈ l, x.1 ∉ a :: names := by
      intro names hn x hx hmem
      rcases mem_cons.mp hmem with heq | hmem
      · exact hnames.1 (mem_map.mpr ⟨x, hx, heq⟩)
      · exact hn x (mem_cons_of_mem _ hx) hmem
    have hva : ¬ validSegment a = false := by simp [hvalid (a, e) mem_cons_self]
    cases e with
    | file f =>
      have hf := hfiles a f mem_cons_self
      refine ⟨enough, fun fuel hfuel t above depth names report hn => ?_⟩
      have hna : a ∉ names := hn (a, .file f) mem_cons_self
      rw [verifyEntries, if_neg hva, if_neg hna, if_neg (not_or.mpr ⟨hf.1, hf.2.1⟩), if_neg hf.2.2]
      exact hrest fuel hfuel t above depth _ _ (hafter hn)
    | directory c =>
      obtain ⟨hc, enough', hverify⟩ := hchildren a c mem_cons_self
      refine ⟨max enough enough', fun fuel hfuel t above depth names report hn => ?_⟩
      have hna : a ∉ names := hn (a, .directory c) mem_cons_self
      obtain ⟨report', hreport'⟩ := hverify fuel (by omega) (above ++ "/" ++ a) depth report
      obtain ⟨report'', hreport''⟩ := hrest fuel (by omega) t above depth (a :: names) report' (hafter hn)
      refine ⟨report'', ?_⟩
      rw [verifyEntries, if_neg hva, if_neg hna, if_neg hc, hreport']
      exact hreport''

/-- **An intact tree verifies.** -/
theorem verifyTree_ok (ht : h.Intact objects t) :
    ∃ enough, ∀ fuel ≥ enough, ∀ above depth report,
      ∃ report', h.verifyTree objects fuel t above depth report = .ok report' := by
  induction ht with
  | @node l stored sorted names files children ih =>
    have hsort : TreeObject.sortEntries l = l := TreeObject.sortEntries_eq (.refl _) sorted
    obtain ⟨enough, hentries⟩ := verifyEntries_ok (pairwise_map.mpr (sorted.imp ne_of_lt)) names files
      fun a c hc => ⟨(children a c hc).ne_unset, ih a c hc⟩
    refine ⟨enough + 1, fun fuel hfuel above depth report => ?_⟩
    obtain ⟨fuel, rfl⟩ : ∃ k, fuel = k + 1 := ⟨fuel - 1, by omega⟩
    rw [verifyTree]
    split_ifs with hseen
    · exact ⟨report, rfl⟩
    · have hread : h.readNodeStrict objects (h.treeId l) = .ok l := by
        rw [readNodeStrict, if_neg (h.treeId_ne_unset l), stored]
        dsimp only
        rw [hsort]
      obtain ⟨report', hreport'⟩ := hentries fuel (by omega) (h.treeId l) above (depth + 1) []
        ⟨h.treeId l :: report.seen, report.treeCount + 1, report.fileCount,
          max depth report.maxDepth⟩
        fun _ _ => not_mem_nil
      refine ⟨report', ?_⟩
      rw [hread, ← hreport']
      simp only [bind, Except.bind, hsort, ne_eq, not_true_eq_false, if_false]

/-! ## Sessions -/

/-- The object store and the roots returned so far, in calls on any of these roots. Before the first
call the store has the empty root and whatever else is stored under its id. -/
inductive Session (h : TreeHash τ) : Table τ (TreeObject τ) → List τ → Prop where
  /-- `EnsureEmptyRoot` ran. -/
  | start {objects : Table τ (TreeObject τ)} (hkeys : ∀ t l, objects.get t = some l → t = h.treeId l) :
    Session h (h.ensureEmptyRoot objects) [h.emptyRootId]
  /-- One more call of `ApplyEdits`. -/
  | edits {objects : Table τ (TreeObject τ)} {roots : List τ} (hs : Session h objects roots) {t : τ}
    (ht : t ∈ roots) {edits : List TreeEdit} (hedits : ∀ e ∈ edits, e.Proper ∧ e.Complete) {t' : τ}
    (hok : (h.applyEdits objects t edits).1 = .ok t') :
    Session h (h.applyEdits objects t edits).2 (roots ++ [t'])
  /-- One more call of `ApplyEditChain`. -/
  | chain {objects : Table τ (TreeObject τ)} {roots : List τ} (hs : Session h objects roots) {t : τ}
    (ht : t ∈ roots) {sets : List (List TreeEdit)}
    (hsets : ∀ edits ∈ sets, ∀ e ∈ edits, e.Proper ∧ e.Complete) {ts : List τ}
    (hok : (h.applyEditChain objects t sets).1 = .ok ts) :
    Session h (h.applyEditChain objects t sets).2 (roots ++ ts)

/-- The tree of a root: it is held and well-formed. -/
structure RootOf (h : TreeHash τ) (objects : Table τ (TreeObject τ)) (t : τ) (n : Node) : Prop where
  names : h.Names t n
  held : h.Holds objects.get n
  wellFormed : n.WellFormed (validSegment · = true) FileEntry.Complete

theorem RootOf.mono {objects' : Table τ (TreeObject τ)} (hext : objects.Extends objects')
    (ht : h.RootOf objects t n) : h.RootOf objects' t n :=
  ⟨ht.names, ht.held.mono hext, ht.wellFormed⟩

/-- What holds in every session. -/
structure SessionSound (h : TreeHash τ) (objects : Table τ (TreeObject τ)) (roots : List τ) : Prop where
  sound : h.Sound objects.get
  roots : ∀ t ∈ roots, ∃ n, h.RootOf objects t n

theorem wellFormed_of_proper (he : e.Proper ∧ e.Complete) :
    e.WellFormed (validSegment · = true) FileEntry.Complete := by
  refine ⟨he.1.wellFormed.1, ?_⟩
  rintro p f rfl
  exact he.2

variable {sets : List (List TreeEdit)}

theorem wellFormed_applyEditChain (hsets : ∀ edits ∈ sets, ∀ e ∈ edits, e.Proper ∧ e.Complete)
    (hn : n.WellFormed (validSegment · = true) FileEntry.Complete) {l : List Node}
    (hl : GitSlice.applyEditChain n sets = .ok l) :
    ∀ n' ∈ l, n'.WellFormed (validSegment · = true) FileEntry.Complete := by
  induction sets generalizing n l with
  | nil =>
    cases hl
    nofun
  | cons edits sets ih =>
    obtain ⟨n₁, hn₁, hrest⟩ := Except.bind_eq_ok.mp hl
    obtain ⟨l', hl', hcons⟩ := Except.bind_eq_ok.mp hrest
    cases hcons
    have hn₁' := wellFormed_applyEditSet
      (fun e he => wellFormed_of_proper (hsets edits mem_cons_self e he)) hn₁ hn
    exact forall_mem_cons.mpr ⟨hn₁', ih (fun es hes => hsets es (mem_cons_of_mem _ hes)) hn₁' hl'⟩

theorem applyEditChain_run (hobjects : h.Sound objects.get) {s : Except TreeError (List (τ × Node))}
    (hs : Gives h.Grew (h.applyEditSets t sets) (.new objects) s (List.map Prod.fst)
      fun b' l => ∀ x ∈ l, h.Holds b'.get x.2) :
    (h.applyEditChain objects t sets).1 = s.map (List.map Prod.fst) ∧
      h.Sound (h.applyEditChain objects t sets).2.get ∧
      objects.Extends (h.applyEditChain objects t sets).2 ∧
      ∀ l, s = .ok l → ∀ x ∈ l, h.Holds (h.applyEditChain objects t sets).2.get x.2 := by
  obtain ⟨b, hrun, hgrew, hheld⟩ := hs
  rw [applyEditChain, hrun]
  cases s with
  | error => exact ⟨rfl, hobjects, .refl _, nofun⟩
  | ok =>
    obtain ⟨hsound, hext, hflush⟩ := hgrew.flush
    exact ⟨rfl, hsound, hext, fun k hk x hx => hflush x.2 (hheld k hk x hx)⟩

theorem sessionSound {roots : List τ} (hs : h.Session objects roots) :
    h.SessionSound objects roots := by
  induction hs with
  | @start objects hkeys =>
    have hsound : h.Sound (h.ensureEmptyRoot objects).get :=
      ⟨Table.forall_set hkeys rfl, Table.get_set_self _ _ _⟩
    refine ⟨hsound, ?_⟩
    intro t ht
    rw [mem_singleton] at ht
    exact ⟨.nil, .inl ht, hsound.holds_nil, trivial⟩
  | @edits objects roots _ t ht edits hedits t' hok ih =>
    obtain ⟨n, hn⟩ := ih.roots t ht
    obtain ⟨s, hs, hnames, hgives⟩ := applyEditSet_refines hn.names hn.wellFormed.sorted edits
    obtain ⟨hret, hsound, hext, hheld⟩ := applyEdits_run ih.sound (hgives (.new objects) ih.sound hn.held)
    refine ⟨hsound, ?_⟩
    intro k hk
    rcases mem_append.mp hk with hk | hk
    · obtain ⟨m, hm⟩ := ih.roots k hk
      exact ⟨m, hm.mono hext⟩
    · rw [mem_singleton] at hk
      subst hk
      rw [hret] at hok
      cases s with
      | error => cases hok
      | ok x =>
        cases hok
        refine ⟨x.2, hnames x rfl, hheld x rfl, ?_⟩
        exact wellFormed_applyEditSet (fun e he => wellFormed_of_proper (hedits e he)) hs.symm hn.wellFormed
  | @chain objects roots _ t ht sets hsets ts hok ih =>
    obtain ⟨n, hn⟩ := ih.roots t ht
    obtain ⟨s, hs, hnames, hgives, -⟩ := applyEditSets_refines hn.names hn.wellFormed.sorted sets
    obtain ⟨hret, hsound, hext, hheld⟩ :=
      applyEditChain_run ih.sound (hgives (.new objects) ih.sound hn.held)
    refine ⟨hsound, ?_⟩
    intro k hk
    rcases mem_append.mp hk with hk | hk
    · obtain ⟨m, hm⟩ := ih.roots k hk
      exact ⟨m, hm.mono hext⟩
    · rw [hret] at hok
      cases s with
      | error => cases hok
      | ok l =>
        cases hok
        obtain ⟨x, hx, rfl⟩ := mem_map.mp hk
        refine ⟨x.2, hnames l rfl x hx, hheld l rfl x hx, ?_⟩
        exact wellFormed_applyEditChain hsets hn.wellFormed hs.symm x.2 (mem_map_of_mem hx)

/-! ## Ids and contents -/

theorem getEntry_eq (ht : h.RootOf objects t n) {p : List String} (hp : p ≠ []) :
    h.getEntry objects t p =
      match n.getEntry p with
      | some e => .ok (h.entry e)
      | none => .error .notFound := by
  have hrun := entryAt_run ht.names ht.wellFormed.sorted p (b := .new objects) ht.held
  rw [getEntry, if_neg hp, Node.getEntry, if_neg hp]
  exact congrArg Prod.fst hrun

theorem leafAt_of_kindAt {n m : Node} (hkind : ∀ p, p ≠ [] → n.kindAt p = m.kindAt p)
    {p : List String}
    (hp : p ≠ []) {x : Leaf} (hx : n.leafAt p = some x) : m.leafAt p = some x := by
  cases x with
  | file =>
    rw [leafAt_eq_file, ← kindAt_eq_file] at hx ⊢
    rwa [← hkind p hp]
  | emptyDirectory =>
    rw [leafAt_eq_emptyDirectory] at hx ⊢
    obtain ⟨c, hc⟩ := kindAt_eq_directory.mp ((hkind p hp).symm.trans (kindAt_eq_directory.mpr ⟨_, hx⟩))
    -- an entry below the path would be one of the empty directory
    by_contra hne
    obtain ⟨r, hr, hleaf⟩ := exists_leaf_below fun hnil : c = .nil => hne (hnil ▸ hc)
    obtain ⟨a, r, rfl⟩ := exists_cons_of_ne_nil hr
    obtain ⟨e, he⟩ := exists_entry_of_leafAt hleaf
    have hbelow := hkind (p ++ a :: r) (append_ne_nil_of_right_ne_nil p hr)
    rw [kindAt, kindAt, getEntry_append, getEntry_append, hx, hc] at hbelow
    simp only [Option.bind_some, Entry.under, getEntry_nil_cons, he] at hbelow
    cases hbelow

theorem eq_of_kindAt {n m : Node} (hn : n.Sorted) (hm : m.Sorted)
    (hkind : ∀ p, p ≠ [] → n.kindAt p = m.kindAt p) : n = m :=
  ext_leaf hn hm fun _ hp => Option.ext fun _ =>
    ⟨leafAt_of_kindAt hkind hp, leafAt_of_kindAt (fun q hq => (hkind q hq).symm) hp⟩

end TreeHash

/-- The kind of a stored entry: a directory without the id of its node. -/
def ObjectEntry.kind {τ : Type} : ObjectEntry τ → PathKind FileEntry
  | .file f => .file f
  | .directory _ => .directory

namespace TreeHash

variable {τ : Type} [DecidableEq τ] {h : TreeHash τ}

theorem kindAt_eq {objects : Table τ (TreeObject τ)} {t : τ} {n : Node} (ht : h.RootOf objects t n)
    {p : List String} (hp : p ≠ []) :
    (h.getEntry objects t p).toOption.map ObjectEntry.kind = n.kindAt p := by
  rw [getEntry_eq ht hp, kindAt]
  cases n.getEntry p with
  | none => rfl
  | some e => cases e <;> rfl

/-- **Tree ids are history independent, and every root verifies.** The roots of any two sessions are
the same exactly when `GetEntry` agrees on every path. At the root itself `GetEntry` returns the id
that it is asked for; without it, and without the ids of directories, agreement still makes roots
the same, but for the id that is not set, which stands for the empty tree. -/
theorem tree_ids_history_independent (h : TreeHash τ) {objects objects' : Table τ (TreeObject τ)}
    {roots roots' : List τ} (hs : h.Session objects roots) (hs' : h.Session objects' roots')
    {t t' : τ} (ht : t ∈ roots) (ht' : t' ∈ roots') :
    (h.Intact objects (if t = h.unset then h.emptyRootId else t) ∧
      ∃ enough, ∀ fuel ≥ enough, ∃ report, h.verifyReachable fuel objects t = .ok report) ∧
    (∀ sets : List (List TreeEdit),
      (h.applyEditChain objects t sets).1 = (h.foldEdits objects t sets).1) ∧
    (t = t' ↔ ∀ p, h.getEntry objects t p = h.getEntry objects' t' p) ∧
    (t ≠ h.unset → t' ≠ h.unset →
      (∀ p, p ≠ [] → (h.getEntry objects t p).toOption.map ObjectEntry.kind =
        (h.getEntry objects' t' p).toOption.map ObjectEntry.kind) → t = t') := by
  have hsound := sessionSound hs
  obtain ⟨n, hn⟩ := hsound.roots t ht
  obtain ⟨n', hn'⟩ := (sessionSound hs').roots t' ht'
  refine ⟨?_, ?_, ?_, ?_⟩
  · have hid : (if t = h.unset then h.emptyRootId else t) = h.idOf n := by
      split_ifs with hunset
      · rcases hn.names with heq | ⟨-, hnil⟩
        · exact absurd (heq.symm.trans hunset) (h.idOf_ne_unset n)
        · rw [hnil]
          rfl
      · exact hn.names.resolve_right fun hu => hunset hu.1
    have hintact := intact_idOf hn.wellFormed hn.held
    obtain ⟨enough, hverify⟩ := verifyTree_ok hintact
    rw [hid]
    refine ⟨hintact, enough, fun fuel hfuel => ?_⟩
    rw [verifyReachable, hid]
    exact hverify fuel hfuel "" 0 _
  · intro sets
    obtain ⟨s, -, -, hgives, hfold⟩ := applyEditSets_refines hn.names hn.wellFormed.sorted sets
    rw [hfold objects hsound.sound hn.held]
    exact (applyEditChain_run hsound.sound (hgives (.new objects) hsound.sound hn.held)).1
  · constructor
    · rintro rfl p
      by_cases hp : p = []
      · subst hp
        rfl
      · rw [getEntry_eq hn hp, getEntry_eq hn' hp, hn.names.unique hn'.names]
    · intro hall
      have hroot := hall []
      exact ObjectEntry.directory.inj (Except.ok.inj hroot)
  · intro hu hu' hkinds
    have hnn : n = n' := by
      refine eq_of_kindAt hn.wellFormed.sorted hn'.wellFormed.sorted fun p hp => ?_
      rw [← kindAt_eq hn hp, ← kindAt_eq hn' hp]
      exact hkinds p hp
    rw [hn.names.resolve_right fun hx => hu hx.1, hn'.names.resolve_right fun hx => hu' hx.1, hnn]

end TreeHash

/-- Ids for trees: the encoded entries themselves, in place of a hash of them. -/
inductive TreeName where
  /-- The id that is not set. -/
  | unset
  /-- No entries. -/
  | nil
  /-- A file before the other entries. -/
  | file (name : String) (entry : FileEntry) (rest : TreeName)
  /-- A directory before the other entries. -/
  | directory (name : String) (treeId rest : TreeName)
deriving DecidableEq

/-- The id of the entries. -/
def TreeName.ofEntries : TreeObject TreeName → TreeName
  | [] => .nil
  | (a, .file f) :: l => .file a f (ofEntries l)
  | (a, .directory t) :: l => .directory a t (ofEntries l)

theorem TreeName.ofEntries_injective : Function.Injective ofEntries := by
  intro l
  induction l with
  | nil =>
    intro l' hl'
    match l', hl' with
    | [], _ => rfl
    | (_, .file _) :: _, hl' => cases hl'
    | (_, .directory _) :: _, hl' => cases hl'
  | cons x l ih =>
    intro l' hl'
    obtain ⟨a, e⟩ := x
    match e, l', hl' with
    | .file _, [], hl' => cases hl'
    | .directory _, [], hl' => cases hl'
    | .file _, (_, .directory _) :: _, hl' => cases hl'
    | .directory _, (_, .file _) :: _, hl' => cases hl'
    | .file f, (b, .file g) :: l', hl' =>
      simp only [ofEntries, TreeName.file.injEq] at hl'
      rw [hl'.1, hl'.2.1, ih hl'.2.2]
    | .directory t, (b, .directory t') :: l', hl' =>
      simp only [ofEntries, TreeName.directory.injEq] at hl'
      rw [hl'.1, hl'.2.1, ih hl'.2.2]

/-- A hash of tree entries. -/
def treeNames : TreeHash TreeName where
  treeId := .ofEntries
  unset := .unset
  treeId_injective := TreeName.ofEntries_injective
  treeId_ne_unset l := by
    match l with
    | [] => simp [TreeName.ofEntries]
    | (_, .file _) :: _ => simp [TreeName.ofEntries]
    | (_, .directory _) :: _ => simp [TreeName.ofEntries]

/-- An object store with the empty root. -/
def freshObjects : Table TreeName (TreeObject TreeName) := treeNames.ensureEmptyRoot .empty

theorem session_freshObjects : treeNames.Session freshObjects [treeNames.emptyRootId] :=
  .start fun _ _ hl => by cases hl

/-- Two files in one call, and in two calls in the other order. -/
theorem tree_ids_history_independent_twoFiles :
    ∃ once twice t, (treeNames.applyEdits freshObjects treeNames.emptyRootId
        [.upsert ["acme", "site", "a"] someFile, .upsert ["acme", "site", "b"] someFile]) =
          (.ok t, once) ∧
      treeNames.applyEditChain freshObjects treeNames.emptyRootId
        [[.upsert ["acme", "site", "b"] someFile], [.upsert ["acme", "site", "a"] someFile]] = twice ∧
      (∃ enough, ∀ fuel ≥ enough, ∃ report, treeNames.verifyReachable fuel once t = .ok report) ∧
      ∀ p, treeNames.getEntry once t p = treeNames.getEntry twice.2 t p := by
  have honce : ((treeNames.applyEdits freshObjects treeNames.emptyRootId
      [.upsert ["acme", "site", "a"] someFile, .upsert ["acme", "site", "b"] someFile]).1).toOption =
      some (treeNames.idOf twoFiles) := by decide +kernel
  have htwice : ((treeNames.applyEditChain freshObjects treeNames.emptyRootId
      [[.upsert ["acme", "site", "b"] someFile], [.upsert ["acme", "site", "a"] someFile]]).1).toOption =
      some [treeNames.idOf (.directory "acme" (.directory "site" (.file "b" someFile .nil) .nil) .nil),
        treeNames.idOf twoFiles] := by decide +kernel
  have hs := TreeHash.Session.edits session_freshObjects mem_cons_self (by decide +kernel)
    (Except.toOption_eq_some.mp honce)
  have hs' := TreeHash.Session.chain session_freshObjects mem_cons_self (by decide +kernel)
    (Except.toOption_eq_some.mp htwice)
  have ht : treeNames.idOf twoFiles ∈ [treeNames.emptyRootId] ++ [treeNames.idOf twoFiles] := by
    simp
  have hmain := TreeHash.tree_ids_history_independent treeNames hs hs' ht
    (mem_append_right _ (mem_cons_of_mem _ mem_cons_self))
  refine ⟨_, _, _, ?_, rfl, hmain.1.2, hmain.2.2.1.mp rfl⟩
  exact Prod.ext (Except.toOption_eq_some.mp honce) rfl

end GitSlice
