import Mathlib.Data.List.Perm.Basic
import Mathlib.Data.String.Basic
import GitSlice.Library.Lists
import GitSlice.TreeStore.Files
import GitSlice.TreeStore.Read

/-! # What the readers show
The readers of `tree_read.go` go through a part of the tree in an order of their own and sort what
they have, so each of them is a permutation of a part of one enumeration of the tree. `Node.Reads`
says what all the readers show of a path map, and `reads_files` that a tree shows its own map. With
the simulation of the edits this is what the tree store is for (`tree_store_path_map`). -/

namespace GitSlice

open Node List

theorem perm_sortByPath {α : Type} (l : List (List String × α)) : (sortByPath l).Perm l :=
  perm_insertionSort _ _

namespace Node

/-! ## One enumeration of a tree -/

/-- Everything under a node, with the paths. -/
def allEntries (p : List String) : Node → List (List String × Entry)
  | .nil => []
  | .file a f rest => (p ++ [a], .file f) :: allEntries p rest
  | .directory a c rest =>
    (p ++ [a], .directory c) :: (allEntries (p ++ [a]) c ++ allEntries p rest)

/-- The file of an entry, with its path. -/
def fileOf (r : List String × Entry) : Option (List String × FileEntry) :=
  match r.2 with
  | .file f => some (r.1, f)
  | .directory _ => none

variable {p : List String}

theorem fileOf_eq_some {r : List String × Entry} {f : FileEntry} :
    fileOf r = some (p, f) ↔ r = (p, .file f) := by
  obtain ⟨q, e⟩ := r
  cases e <;> simp [fileOf]

variable {q : List String} {e : Entry} {a : String} {rest : Node}

theorem exists_getEntry_cons {x : Entry} (hbefore : Before a rest) (hrest : rest.Sorted) :
    (∃ r, r ≠ [] ∧ q = p ++ r ∧ (cons a e rest).getEntry r = some x) ↔
      (∃ t, q = p ++ a :: t ∧ e.under t = some x) ∨
        ∃ r, r ≠ [] ∧ q = p ++ r ∧ rest.getEntry r = some x := by
  constructor
  · rintro ⟨r, hr, rfl, hx⟩
    obtain ⟨b, t, rfl⟩ := exists_cons_of_ne_nil hr
    rw [getEntry_cons, findEntry_cons] at hx
    split_ifs at hx with hab
    · exact .inl ⟨t, by rw [hab], hx⟩
    · exact .inr ⟨b :: t, hr, rfl, by rwa [getEntry_cons]⟩
  · rintro (⟨t, rfl, hx⟩ | ⟨r, hr, rfl, hx⟩)
    · refine ⟨a :: t, by simp, rfl, ?_⟩
      rw [getEntry_cons, findEntry_cons, if_pos rfl]
      exact hx
    · refine ⟨r, hr, rfl, ?_⟩
      obtain ⟨b, t, rfl⟩ := exists_cons_of_ne_nil hr
      rw [getEntry_cons] at hx ⊢
      rw [findEntry_cons, if_neg]
      · exact hx
      · -- the first name is not in the rest
        rintro rfl
        rw [findEntry_eq_none_of_before hrest hbefore] at hx
        cases hx

variable {n : Node}

theorem mem_allEntries (hn : n.Sorted) :
    (q, e) ∈ allEntries p n ↔ ∃ r, r ≠ [] ∧ q = p ++ r ∧ n.getEntry r = some e := by
  induction n generalizing p with
  | nil =>
    simp only [allEntries, not_mem_nil, false_iff, not_exists, not_and]
    intro r hr _
    obtain ⟨a, r, rfl⟩ := exists_cons_of_ne_nil hr
    simp
  | file a f rest ih =>
    have hcons := exists_getEntry_cons (e := .file f) (x := e) hn.2.1 hn.2.2 (p := p) (q := q)
    rw [allEntries, mem_cons, ih hn.2.2]
    refine Iff.trans (or_congr ?_ Iff.rfl) hcons.symm
    constructor
    · rintro ⟨⟩
      exact ⟨[], rfl, rfl⟩
    · rintro ⟨t, rfl, ht⟩
      cases t with
      | nil =>
        cases ht
        rfl
      | cons b t => cases ht
  | directory a c rest ihc ih =>
    have hcons := exists_getEntry_cons (e := .directory c) (x := e) hn.2.1 hn.2.2 (p := p) (q := q)
    rw [allEntries, mem_cons, mem_append, ih hn.2.2, ihc hn.1.2, ← or_assoc]
    refine Iff.trans (or_congr ?_ Iff.rfl) hcons.symm
    constructor
    · rintro (⟨⟨⟩⟩ | ⟨r, hr, rfl, hre⟩)
      · exact ⟨[], rfl, rfl⟩
      · exact ⟨r, by simp, hre⟩
    · rintro ⟨t, rfl, ht⟩
      by_cases hnil : t = []
      · subst hnil
        cases ht
        exact .inl rfl
      · exact .inr ⟨t, hnil, by simp, ht⟩

theorem not_mem_allEntries (hbefore : Before a rest) (hrest : rest.Sorted) (p t : List String) :
    p ++ a :: t ∉ (allEntries p rest).map Prod.fst := by
  intro hmem
  obtain ⟨⟨q, e⟩, hqe, hq⟩ := mem_map.mp hmem
  obtain ⟨r, hr, rfl, hre⟩ := (mem_allEntries hrest).mp hqe
  rw [append_cancel_left hq, getEntry_cons, findEntry_eq_none_of_before hrest hbefore] at hre
  cases hre

theorem nodup_allEntries (hn : n.Sorted) (p : List String) :
    ((allEntries p n).map Prod.fst).Nodup := by
  induction n generalizing p with
  | nil => exact nodup_nil
  | file a f rest ih =>
    rw [allEntries, map_cons, nodup_cons]
    exact ⟨not_mem_allEntries hn.2.1 hn.2.2 p [], ih hn.2.2 p⟩
  | directory a c rest ihc ih =>
    rw [allEntries, map_cons, map_append, nodup_cons, mem_append, nodup_append,
      not_or]
    have hbelow : ∀ {q}, q ∈ (allEntries (p ++ [a]) c).map Prod.fst →
        ∃ t, t ≠ [] ∧ q = p ++ a :: t := by
      intro q hq
      obtain ⟨⟨q', e⟩, hqe, rfl⟩ := mem_map.mp hq
      obtain ⟨r, hr, rfl, -⟩ := (mem_allEntries hn.1.2).mp hqe
      exact ⟨r, hr, by simp⟩
    refine ⟨⟨fun hmem => ?_, not_mem_allEntries hn.2.1 hn.2.2 p []⟩, ihc hn.1.2 _, ih hn.2.2 p, ?_⟩
    · obtain ⟨t, ht, heq⟩ := hbelow hmem
      exact ht (by simpa using heq)
    · rintro q hq q' hq' rfl
      obtain ⟨t, -, rfl⟩ := hbelow hq
      exact not_mem_allEntries hn.2.1 hn.2.2 p t hq'

/-! ## The readers enumerate the tree -/

theorem perm_collectEntries (p : List String) (n : Node) :
    (collectEntries p n).Perm ((allEntries p n).filterMap fileOf) := by
  induction n generalizing p with
  | nil => exact .refl _
  | file a f rest ih =>
    exact (ih p).cons _
  | directory a c rest ihc ih =>
    rw [allEntries, filterMap_cons, filterMap_append]
    exact ((perm_sortByPath _).trans (ihc (p ++ [a]))).append (ih p)

/-- A node's own entries and what is under its directories make up what is under it. -/
theorem perm_allEntries (p : List String) (n : Node) :
    (allEntries p n).Perm
      (treeEntries (p, n) ++ (directories (p, n)).flatMap fun d => allEntries d.1 d.2) := by
  induction n with
  | nil => exact .refl _
  | file a f rest ih => exact ih.cons _
  | directory a c rest _ ih =>
    refine List.Perm.cons _ ((ih.append_left _).trans ?_)
    exact perm_append_comm_assoc _ _ _

theorem depth_of_mem_directories {d d' : List String × Node} (h : d' ∈ directories d) :
    d'.2.depth < d.2.depth := by
  obtain ⟨p, n⟩ := d
  induction n with
  | nil => cases h
  | file a f rest ih =>
    have hrest : d'.2.depth < rest.depth := ih h
    simp only [depth]
    omega
  | directory a c rest _ ih =>
    simp only [depth]
    rcases mem_cons.mp h with rfl | h
    · simp only
      omega
    · have hrest : d'.2.depth < rest.depth := ih h
      omega

theorem perm_listLevels {levels : Nat} {level : List (List String × Node)}
    (h : ∀ d ∈ level, d.2.depth ≤ levels) :
    (listLevels levels level).Perm (level.flatMap fun d => allEntries d.1 d.2) := by
  induction levels generalizing level with
  | zero =>
    have hempty : ∀ d ∈ level, allEntries d.1 d.2 = [] := by
      intro d hd
      have hdepth := h d hd
      cases hn : d.2 with
      | nil => rfl
      | file | directory =>
        rw [hn, depth] at hdepth
        omega
    rw [flatMap_eq_nil_iff.mpr hempty]
    exact .refl _
  | succ levels ih =>
    have hnext : ∀ d ∈ level.flatMap directories, d.2.depth ≤ levels := by
      intro d hd
      obtain ⟨d₀, hd₀, hmem⟩ := mem_flatMap.mp hd
      have hlt := depth_of_mem_directories hmem
      have hle := h d₀ hd₀
      omega
    refine ((ih hnext).append_left _).trans ?_
    rw [flatMap_assoc]
    refine (flatMap_append_perm _ _ _).trans ?_
    exact List.Perm.flatMap_left _ fun d _ => (perm_allEntries d.1 d.2).symm

end Node

/-! ## Lists in the order of the paths -/

variable {a : String}

theorem no_slash (h : validSegment a = true) : '/' ∉ a.toList := by
  simp only [validSegment, Bool.and_eq_true, Bool.not_eq_true', contains_eq_mem,
    decide_eq_false_iff_not] at h
  exact h.2

theorem toList_joinParts (p : List String) :
    (joinParts p).toList = ['/'].intercalate (p.map String.toList) := by
  rw [joinParts, String.toList_intercalate]
  rfl

variable {p : List String} {q : List String}

section

variable (hp : ∀ a ∈ p, validSegment a = true)
include hp

theorem splitOn_joinParts (hne : p ≠ []) :
    (joinParts p).toList.splitOn '/' = p.map String.toList := by
  rw [toList_joinParts]
  refine splitOn_intercalate '/' (fun l hl => ?_) (by simpa using hne)
  obtain ⟨a, ha, rfl⟩ := mem_map.mp hl
  exact no_slash (hp a ha)

theorem joinParts_injective
    (hq : ∀ a ∈ q, validSegment a = true) (h : joinParts p = joinParts q) : p = q := by
  -- only the root has the empty string
  have hempty : ∀ {p : List String}, (∀ a ∈ p, validSegment a = true) →
      joinParts p = "" → p = [] := by
    intro p hp h
    by_contra hne
    have hsplit := splitOn_joinParts hp hne
    rw [h] at hsplit
    cases p with
    | nil => exact hne rfl
    | cons a p =>
      have ha : a = "" := String.toList_inj.mp (cons_eq_cons.mp hsplit).1.symm
      exact absurd (hp a mem_cons_self) (by rw [ha]; decide)
  by_cases hnil : p = []
  · subst hnil
    exact (hempty hq h.symm).symm
  · have hnil' : q ≠ [] := by
      rintro rfl
      exact hnil (hempty hp h)
    have hmap : p.map String.toList = q.map String.toList := by
      rw [← splitOn_joinParts hp hnil, ← splitOn_joinParts hq hnil', h]
    exact map_injective_iff.mpr (fun _ _ => String.toList_inj.mp) hmap

theorem renderPath_injective
    (hq : ∀ a ∈ q, validSegment a = true) (h : renderPath p = renderPath q) : p = q := by
  refine joinParts_injective hp hq ?_
  simpa [renderPath] using h

end

theorem joinParts_append (hne : p ≠ []) (hne' : q ≠ []) :
    joinParts (p ++ q) = joinParts p ++ "/" ++ joinParts q :=
  String.intercalate_append_of_ne_nil hne hne'

theorem joinParts_isPrefix (h : p <+: q) : (joinParts p).toList <+: (joinParts q).toList := by
  obtain ⟨r, rfl⟩ := h
  by_cases hp : p = []
  · rw [hp]
    exact nil_prefix
  · by_cases hr : r = []
    · rw [hr, append_nil]
    · rw [joinParts_append hp hr]
      simp

theorem renderPath_le (h : p <+: q) : renderPath p ≤ renderPath q := by
  refine not_lt.mp fun hlt => List.IsPrefix.le ?_ hlt
  rw [renderPath, renderPath, String.toList_append, String.toList_append]
  exact (prefix_append_right_inj _).mpr (joinParts_isPrefix h)

/-- The list has what satisfies a property, once each and in the order of the path strings. -/
structure Lists {α : Type} (l : List (List String × α)) (P : List String → α → Prop) : Prop where
  mem : ∀ q x, (q, x) ∈ l ↔ P q x
  sorted : l.Pairwise fun r r' => renderPath r.1 < renderPath r'.1

section Lists

variable {α : Type} {P : List String → α → Prop} {l : List (List String × α)}

theorem Lists.congr {Q : List String → α → Prop} (h : Lists l P) (hPQ : ∀ q x, P q x ↔ Q q x) :
    Lists l Q :=
  ⟨fun q x => (h.mem q x).trans (hPQ q x), h.sorted⟩

theorem lists_sortByPath (hnodup : (l.map Prod.fst).Nodup)
    (hvalid : ∀ r ∈ l, ∀ a ∈ r.1, validSegment a = true) (hP : ∀ q x, (q, x) ∈ l ↔ P q x) :
    Lists (sortByPath l) P where
  mem q x := (perm_sortByPath l).mem_iff.trans (hP q x)
  sorted := by
    have hinj : ∀ r ∈ l, ∀ r' ∈ l, renderPath r.1 = renderPath r'.1 → r = r' :=
      fun r hr r' hr' heq => inj_on_of_nodup_map hnodup hr hr'
        (renderPath_injective (hvalid r hr) (hvalid r' hr') heq)
    have hsorted := strictly_insertionSort_of_key _ (fun _ _ => .rfl) (hnodup.of_map _) hinj
    exact hsorted

theorem lists_nil (h : ∀ q x, ¬ P q x) : Lists [] P :=
  ⟨fun q x => by simp [h q x], .nil⟩

theorem lists_single {p : List String} {x : α} (h : ∀ q y, P q y ↔ q = p ∧ y = x) :
    Lists [(p, x)] P :=
  ⟨fun q y => by simp [h q y], pairwise_singleton _ _⟩

end Lists

/-! ## What the readers show of a path map -/

/-- A listing without the nodes of the directories. -/
def kinds (l : List (List String × Entry)) : List (List String × PathKind FileEntry) :=
  l.map fun r => (r.1, r.2.kind)

variable {l : List (List String × Entry)}

theorem mem_kinds {k : PathKind FileEntry} : (q, k) ∈ kinds l ↔ ∃ e, (q, e) ∈ l ∧ e.kind = k := by
  simp [kinds]

variable {n : Node}

theorem lists_kinds {P : List String → PathKind FileEntry → Prop}
    (h : Lists l fun q e => n.getEntry q = some e ∧ P q e.kind) :
    Lists (kinds l) fun q k => n.kindAt q = some k ∧ P q k where
  mem q k := by
    rw [mem_kinds, kindAt, Option.map_eq_some_iff]
    constructor
    · rintro ⟨e, he, rfl⟩
      exact ⟨⟨e, ((h.mem q e).mp he).1, rfl⟩, ((h.mem q e).mp he).2⟩
    · rintro ⟨⟨e, he, rfl⟩, hP⟩
      exact ⟨e, (h.mem q e).mpr ⟨he, hP⟩, rfl⟩
  sorted := pairwise_map.mpr h.sorted

theorem lists_filterMap_fileOf {P : List String → Entry → Prop} (h : Lists l P) :
    Lists (l.filterMap fileOf) fun q f => P q (.file f) where
  mem q f := by
    rw [mem_filterMap, ← h.mem]
    constructor
    · rintro ⟨r, hr, hfile⟩
      rwa [← fileOf_eq_some.mp hfile]
    · intro hmem
      exact ⟨_, hmem, fileOf_eq_some.mpr rfl⟩
  sorted := by
    refine List.Pairwise.filterMap fileOf ?_ h.sorted
    rintro r r' hlt ⟨q, f⟩ hq ⟨q', f'⟩ hq'
    rw [fileOf_eq_some.mp hq, fileOf_eq_some.mp hq'] at hlt
    exact hlt

namespace Node

/-- The readers, each on every path, show exactly what a path map holds. -/
structure Reads (n : Node) (m : Files) : Prop where
  getEntry : ∀ p, (n.getEntry p).map Entry.kind = m.get p
  getFile : ∀ p f, n.fileAt p = some f ↔ m.get p = some (.file f)
  listDirectory : ∀ p, Lists (kinds (n.listDirectory p)) fun q k =>
    m.get q = some k ∧ ((q = p ∧ k ≠ .directory) ∨ ∃ a, q = p ++ [a])
  listTree : ∀ p, Lists (kinds (n.listTree p)) fun q k =>
    m.get q = some k ∧ p <+: q ∧ (q = p → k ≠ .directory)
  listFiles : ∀ p, Lists (n.listFiles p) fun q f => m.get q = some (.file f) ∧ p <+: q
  agree : ∀ p, n.listFiles p = (n.listTree p).filterMap fileOf

variable {e : Entry}

theorem mem_entries (hn : n.Sorted) : (a, e) ∈ n.entries ↔ n.findEntry a = some e := by
  have hcons : ∀ {b : String} {d : Entry} {rest : Node}, Before b rest → rest.Sorted →
      ((a, e) ∈ rest.entries ↔ rest.findEntry a = some e) →
      ((a, e) ∈ (b, d) :: rest.entries ↔ (cons b d rest).findEntry a = some e) := by
    intro b d rest hbefore hrest ih
    rw [mem_cons, ih]
    by_cases hba : b = a
    · subst hba
      simp [findEntry_eq_none_of_before hrest hbefore, eq_comm]
    · simp [hba, Ne.symm hba]
  induction n with
  | nil => simp [entries]
  | file _ _ _ ih | directory _ _ _ _ ih => exact hcons hn.2.1 hn.2.2 (ih hn.2.2)

theorem mem_treeEntries (hn : n.Sorted) :
    (q, e) ∈ treeEntries (p, n) ↔ ∃ a, q = p ++ [a] ∧ n.findEntry a = some e := by
  simp only [treeEntries, mem_map, Prod.exists, Prod.mk.injEq]
  constructor
  · rintro ⟨a, d, hmem, rfl, rfl⟩
    exact ⟨a, rfl, (mem_entries hn).mp hmem⟩
  · rintro ⟨a, rfl, ha⟩
    exact ⟨a, e, (mem_entries hn).mpr ha, rfl, rfl⟩

theorem getEntry_inside {c : Node} (h : n.getEntry p = some (.directory c)) (r : List String) :
    n.getEntry (p ++ r) = c.getEntry r := by
  rw [getEntry_append, h]
  rfl

theorem eq_of_getEntry_under (h : ∀ c, n.getEntry p ≠ some (.directory c)) (hpq : p <+: q)
    (he : n.getEntry q = some e) : q = p := by
  by_contra hne
  obtain ⟨c, hc⟩ := exists_directory_of_above hpq (Ne.symm hne) he
  exact h c hc

section Readers

variable {F : FileEntry → Prop} (hn : n.WellFormed (validSegment · = true) F)

include hn

theorem lists_listDirectory (p : List String) :
    Lists (n.listDirectory p) fun q e =>
      n.getEntry q = some e ∧ ((q = p ∧ e.kind ≠ .directory) ∨ ∃ a, q = p ++ [a]) := by
  rw [listDirectory]
  split
  · rename_i hp
    refine lists_nil ?_
    rintro q e ⟨he, ⟨rfl, -⟩ | ⟨a, rfl⟩⟩
    · rw [hp] at he
      cases he
    · rw [getEntry_append, hp] at he
      cases he
  · rename_i f hp
    refine lists_single fun q e => ⟨?_, ?_⟩
    · rintro ⟨he, ⟨rfl, -⟩ | ⟨a, rfl⟩⟩
      · rw [hp] at he
        exact ⟨rfl, (Option.some.inj he).symm⟩
      · rw [getEntry_append, hp] at he
        cases he
    · rintro ⟨rfl, rfl⟩
      exact ⟨hp, .inl ⟨rfl, nofun⟩⟩
  · rename_i c hp
    have hc : c.WellFormed _ F := (hn.getEntry hp).2
    have hmem : ∀ q e, (q, e) ∈ treeEntries (p, c) ↔
        n.getEntry q = some e ∧ ((q = p ∧ e.kind ≠ .directory) ∨ ∃ a, q = p ++ [a]) := by
      intro q e
      rw [mem_treeEntries hc.sorted]
      constructor
      · rintro ⟨a, rfl, ha⟩
        refine ⟨?_, .inr ⟨a, rfl⟩⟩
        rw [getEntry_inside hp, getEntry_cons, ha]
        cases e <;> rfl
      · rintro ⟨he, ⟨rfl, hk⟩ | ⟨a, rfl⟩⟩
        · rw [hp] at he
          cases he
          exact absurd rfl hk
        · refine ⟨a, rfl, ?_⟩
          rw [getEntry_inside hp, getEntry_cons] at he
          obtain ⟨d, hd, hde⟩ := Option.bind_eq_some_iff.mp he
          rw [hd]
          cases d <;> exact hde
    refine lists_sortByPath ?_ ?_ hmem
    · have hsub := ((perm_allEntries p c).map Prod.fst).nodup_iff.mp (nodup_allEntries hc.sorted p)
      rw [map_append] at hsub
      exact hsub.of_append_left
    · rintro ⟨q, e⟩ hq
      exact (hn.getEntry ((hmem q e).mp hq).1).1

theorem lists_listTree (p : List String) :
    Lists (n.listTree p) fun q e =>
      n.getEntry q = some e ∧ p <+: q ∧ (q = p → e.kind ≠ .directory) := by
  rw [listTree]
  split
  · rename_i hp
    refine lists_nil ?_
    rintro q e ⟨he, hpq, -⟩
    obtain rfl := eq_of_getEntry_under (by simp [hp]) hpq he
    rw [hp] at he
    cases he
  · rename_i f hp
    refine lists_single fun q e => ⟨?_, ?_⟩
    · rintro ⟨he, hpq, -⟩
      obtain rfl := eq_of_getEntry_under (by simp [hp]) hpq he
      rw [hp] at he
      exact ⟨rfl, (Option.some.inj he).symm⟩
    · rintro ⟨rfl, rfl⟩
      exact ⟨hp, prefix_refl _, nofun⟩
  · rename_i c hp
    have hc : c.WellFormed _ F := (hn.getEntry hp).2
    have hperm : (listLevels c.depth [(p, c)]).Perm (allEntries p c) := by
      simpa using perm_listLevels (show ∀ d ∈ [(p, c)], d.2.depth ≤ c.depth by simp)
    have hmem : ∀ q e, (q, e) ∈ listLevels c.depth [(p, c)] ↔
        n.getEntry q = some e ∧ p <+: q ∧ (q = p → e.kind ≠ .directory) := by
      intro q e
      rw [hperm.mem_iff, mem_allEntries hc.sorted]
      constructor
      · rintro ⟨r, hr, rfl, he⟩
        rw [getEntry_inside hp]
        exact ⟨he, prefix_append _ _, fun h => absurd (by simpa using h) hr⟩
      · rintro ⟨he, ⟨r, rfl⟩, hk⟩
        rw [getEntry_inside hp] at he
        refine ⟨r, ?_, rfl, he⟩
        rintro rfl
        cases he
        exact hk (append_nil p) rfl
    refine lists_sortByPath ?_ ?_ hmem
    · exact (hperm.map Prod.fst).nodup_iff.mpr (nodup_allEntries hc.sorted p)
    · rintro ⟨q, e⟩ hq
      exact (hn.getEntry ((hmem q e).mp hq).1).1

theorem listFiles_eq (p : List String) : n.listFiles p = (n.listTree p).filterMap fileOf := by
  have htree := (lists_filterMap_fileOf (lists_listTree hn p)).sorted
  rw [listTree] at htree ⊢
  rw [listFiles]
  cases hp : n.getEntry p with
  | none => rfl
  | some e =>
    cases e with
    | file => rfl
    | directory c =>
      rw [hp] at htree
      have hlevels := perm_listLevels (show ∀ d ∈ [(p, c)], d.2.depth ≤ c.depth by simp)
      rw [flatMap_cons, flatMap_nil, append_nil] at hlevels
      have hlist := insertionSort_eq_of_key _ (fun _ _ => .rfl) ((perm_collectEntries p c).trans
        ((hlevels.symm.trans (perm_sortByPath _).symm).filterMap fileOf)) htree
      exact hlist

theorem lists_listFiles (p : List String) :
    Lists (n.listFiles p) fun q f =>
      n.getEntry q = some (.file f) ∧ p <+: q ∧ (q = p → Entry.kind (.file f) ≠ .directory) := by
  rw [listFiles_eq hn]
  exact lists_filterMap_fileOf (lists_listTree hn p)

/-- **A tree shows its own path map.** -/
theorem reads_files : n.Reads n.files where
  getEntry p := rfl
  getFile p f := by
    show n.fileAt p = some f ↔ n.kindAt p = some (.file f)
    rw [fileAt_eq_some, kindAt_eq_file]
  listDirectory p := lists_kinds (lists_listDirectory hn p)
  listTree p := lists_kinds (lists_listTree hn p)
  listFiles p := by
    refine (lists_listFiles hn p).congr fun q f => ?_
    show _ ↔ n.kindAt q = some (.file f) ∧ _
    rw [kindAt_eq_file]
    exact and_congr_right fun _ => ⟨And.left, fun hpq => ⟨hpq, fun _ => nofun⟩⟩
  agree := listFiles_eq hn

end Readers

end Node

/-- **The tree store implements a path map.** Edits on a reachable tree do to what all the readers
show what they do to a path map, with paths as `splitPath` reads them; the paths beside the edited
ones keep what they hold; and where the map refuses the edits there is no new tree. -/
theorem tree_store_path_map {n : Node} (hn : Reachable n) {m : Files} (hm : n.Reads m)
    {edits : List TreeEdit} (hproper : ∀ e ∈ edits, e.Proper) (hregular : EditsRegular m edits) :
    (∀ m', m.edits edits = some m' → ∃ n', applyEditsSequential n edits = .ok n' ∧ n'.Reads m' ∧
      ∀ q, (∀ p ∈ writtenParts edits, ¬ Overlaps p q) → m'.get q = m.get q) ∧
    (m.edits edits = none → ∃ err, applyEditsSequential n edits = .error err) := by
  obtain rfl : m = n.files := PathMap.ext fun p => (hm.getEntry p).symm
  have hsimulates := sequential_simulates hregular
  constructor
  · intro m' hm'
    rw [hm', Option.map_eq_some_iff] at hsimulates
    obtain ⟨n', hn', rfl⟩ := hsimulates
    have hok : applyEditsSequential n edits = .ok n' := Except.toOption_eq_some.mp hn'
    refine ⟨n', hok, ?_, fun q hq => PathMap.edits_frame hm' hq⟩
    -- every edit keeps the tree in order
    have hstep : ∀ b, ∀ e ∈ edits, ∀ c, b.WellFormed (validSegment · = true) (fun _ => True) →
        e.apply b = .ok c → c.WellFormed (validSegment · = true) (fun _ => True) := by
      intro b e he c hb hc
      exact Edit.wellFormed_apply (hproper e he).wellFormed hc hb
    exact reads_files (Except.foldlM_induction _ hstep hn.wellFormed hok)
  · intro hnone
    rw [hnone] at hsimulates
    cases hok : applyEditsSequential n edits with
    | error err => exact ⟨err, rfl⟩
    | ok =>
      rw [hok] at hsimulates
      cases hsimulates

/-- Some file. -/
def someFile : FileEntry := ⟨0o100644, "blob_1", "hash_1", 3⟩

/-- Two files in one folder. -/
def twoFiles : Node :=
  .directory "acme" (.directory "site" (.file "a" someFile (.file "b" someFile .nil)) .nil) .nil

theorem reachable_twoFiles : Reachable twoFiles :=
  .edit [.upsert ["acme", "site", "b"] someFile, .upsert ["acme", "site", "a"] someFile]
    (by decide +kernel) .empty (Except.toOption_eq_some.mp (by decide +kernel))

/-- The one file is copied below the other. -/
def copiedBelowFile : List TreeEdit := [.copy ["acme", "site", "b"] ["acme", "site", "a", "c"]]

/-- The copy is refused and there is a new tree, an empty one. -/
theorem copiedBelowFile_empties :
    Reachable twoFiles ∧ twoFiles.Reads twoFiles.files ∧ (∀ e ∈ copiedBelowFile, e.Proper) ∧
      twoFiles.files.edits copiedBelowFile = none ∧
      applyEditsSequential twoFiles copiedBelowFile = .ok .nil := by
  refine ⟨reachable_twoFiles, reads_files reachable_twoFiles.wellFormed, by decide +kernel, ?_,
    Except.toOption_eq_some.mp (by decide +kernel)⟩
  have hrefused : twoFiles.files.edit (.copy ["acme", "site", "b"] ["acme", "site", "a", "c"]) = none := by
    rw [PathMap.edit, dif_pos (by decide +kernel), dif_neg]
    rintro ⟨-, hfree⟩
    exact hfree ["acme", "site", "a"] (by decide +kernel) (by decide +kernel) someFile
      (by decide +kernel)
  rw [PathMap.edits, copiedBelowFile, foldlM_cons, hrefused]
  rfl

/-- One file is moved to a new folder and the other deleted. -/
def movedAndDeleted : List TreeEdit :=
  [.rename ["acme", "site", "b"] ["acme", "site", "c", "d"], .delete ["acme", "site", "a"]]

theorem tree_store_path_map_movedAndDeleted :
    ∃ m', twoFiles.files.edits movedAndDeleted = some m' ∧
      ∃ n', applyEditsSequential twoFiles movedAndDeleted = .ok n' ∧ n'.Reads m' ∧
        m'.get ["acme", "site", "c", "d"] = some (.file someFile) := by
  have habove : ∀ q ∈ ["acme", "site", "c", "d"].inits, twoFiles.fileAt q = none := by
    decide +kernel
  have hregular : EditsRegular twoFiles.files movedAndDeleted := by
    refine ⟨⟨by decide +kernel, by decide +kernel, ?_⟩, fun m' _ => ⟨?_, fun _ _ => trivial⟩⟩
    · intro q hq _ _
      exact fileAt_eq_none_iff.mp (habove q ((mem_inits q _).mpr hq))
    · show splitPath ["acme", "site", "a"] ≠ []
      decide +kernel
  have hmap := tree_store_path_map reachable_twoFiles (reads_files reachable_twoFiles.wellFormed)
    (by decide +kernel) hregular
  have hmoved : ((applyEditsSequential twoFiles movedAndDeleted).toOption.bind fun n' =>
      n'.fileAt ["acme", "site", "c", "d"]) = some someFile := by decide +kernel
  cases hm' : twoFiles.files.edits movedAndDeleted with
  | none =>
    obtain ⟨err, herr⟩ := hmap.2 hm'
    rw [herr] at hmoved
    cases hmoved
  | some m' =>
    obtain ⟨n', hn', hreads, -⟩ := hmap.1 m' hm'
    rw [hn'] at hmoved
    exact ⟨m', rfl, n', hn', hreads, (hreads.getFile _ _).mp hmoved⟩

end GitSlice
