import GitSlice.GitCompat.GitTree

/-! # The canonical tree of a map of files
What a map of files says about its directories (`FileMap.IsDir`, `FileMap.names`), and the two facts
about the canonical tree that the builder needs: the tree of a directory is made of the trees of its
directories (`FileMap.treeID_eq`), and it depends on the files under the directory only
(`FileMap.treeID_congr`). -/

namespace GitSlice

open List

namespace FileMap

variable {files files' : FileMap} {d p : Path} {n : String}

/-- A map of files of a tree: proper names, and no file above another one. -/
structure TreeLike (files : FileMap) : Prop where
  proper : ∀ p, files.get p ≠ none → p ≠ [] ∧ ∀ a ∈ p, validSegment a = true
  apart : ∀ p q, files.get p ≠ none → files.get q ≠ none → p <+: q → p = q

/-- A path with files under it, or the root. -/
def IsDir (files : FileMap) (d : Path) : Prop :=
  d = [] ∨ ∃ p, files.get p ≠ none ∧ d <+: p ∧ d ≠ p

/-! ## Names -/

theorem nameUnder_eq_some : nameUnder d p = some n ↔ d ++ [n] <+: p := by
  rw [nameUnder]
  split_ifs with h
  · obtain ⟨r, rfl⟩ := h
    rw [prefix_append_right_inj]
    cases r with
    | nil => simp
    | cons a r => simp [eq_comm]
  · refine ⟨fun h' => (nomatch h'), fun h' => absurd ((prefix_append d [n]).trans h') h⟩

theorem nodup_names (files : FileMap) (d : Path) : (files.names d).Nodup := nodup_dedup _

theorem mem_names : n ∈ files.names d ↔ ∃ p, files.get p ≠ none ∧ d ++ [n] <+: p := by
  simp only [names, mem_dedup, mem_filterMap, nameUnder_eq_some]
  constructor
  · rintro ⟨⟨p, f⟩, hmem, hunder⟩
    exact ⟨p, by rw [(files.mem_rows_iff p f).mp hmem]; simp, hunder⟩
  · rintro ⟨p, hget, hunder⟩
    obtain ⟨f, hf⟩ := Option.ne_none_iff_exists'.mp hget
    exact ⟨(p, f), (files.mem_rows_iff p f).mpr hf, hunder⟩

theorem mem_names_iff :
    n ∈ files.names d ↔ files.get (d ++ [n]) ≠ none ∨ files.IsDir (d ++ [n]) := by
  rw [mem_names]
  constructor
  · rintro ⟨p, hget, hunder⟩
    by_cases heq : d ++ [n] = p
    · exact .inl (by rw [heq]; exact hget)
    · exact .inr (.inr ⟨p, hget, hunder, heq⟩)
  · rintro (hget | hnil | ⟨p, hget, hunder, -⟩)
    · exact ⟨d ++ [n], hget, prefix_refl _⟩
    · simp at hnil
    · exact ⟨p, hget, hunder⟩

theorem IsDir.exists_name (h : files.IsDir d) : d = [] ∨ ∃ n, n ∈ files.names d := by
  rcases h with rfl | ⟨p, hget, ⟨r, rfl⟩, hne⟩
  · exact .inl rfl
  · cases r with
    | nil => simp at hne
    | cons a r => exact .inr ⟨a, mem_names.mpr ⟨_, hget, r, by simp⟩⟩

theorem isDir_of_mem_names (h : n ∈ files.names d) : files.IsDir d := by
  obtain ⟨p, hget, hunder⟩ := mem_names.mp h
  refine .inr ⟨p, hget, (prefix_append d [n]).trans hunder, ?_⟩
  rintro rfl
  have hlen := hunder.length_le
  simp at hlen

theorem IsDir.above (h : files.IsDir p) (hd : d <+: p) : files.IsDir d := by
  rcases h with rfl | ⟨q, hget, hunder, hne⟩
  · exact .inl (prefix_nil.mp hd)
  · refine .inr ⟨q, hget, hd.trans hunder, ?_⟩
    rintro rfl
    exact hne (hunder.eq_of_length (le_antisymm hunder.length_le hd.length_le))

theorem TreeLike.congr {files' : FileMap} (h : files'.TreeLike)
    (hsame : ∀ p, files.get p = files'.get p) :
    files.TreeLike := by
  refine ⟨fun p hp => ?_, fun p q hp hq hle => ?_⟩
  · rw [hsame] at hp
    exact h.proper p hp
  · rw [hsame] at hp hq
    exact h.apart p q hp hq hle

theorem TreeLike.not_isDir (h : files.TreeLike) (hp : files.get p ≠ none) : ¬ files.IsDir p := by
  rintro (rfl | ⟨q, hq, hunder, hne⟩)
  · exact (h.proper [] hp).1 rfl
  · exact hne (h.apart p q hp hq hunder)

theorem TreeLike.validSegment_of_mem_names (h : files.TreeLike) (hn : n ∈ files.names d) :
    validSegment n = true := by
  obtain ⟨p, hget, hunder⟩ := mem_names.mp hn
  exact (h.proper p hget).2 n (hunder.subset (by simp))

/-! ## The encoding does not depend on the order of the rows -/

theorem treeEntryKey_injective {x y : String × TreeEntry} (hx : validSegment x.1 = true)
    (hy : validSegment y.1 = true) (h : treeEntryKey x = treeEntryKey y) : x.1 = y.1 := by
  have hslash : ∀ {a : String}, validSegment a = true → '/' ∉ a.toList := by
    intro a ha
    simp [validSegment] at ha
    exact ha.2
  have hlist := congrArg String.toList h
  unfold treeEntryKey at hlist
  split_ifs at hlist
  · simp only [String.toList_append] at hlist
    exact String.toList_inj.mp (append_cancel_right hlist)
  · refine absurd ?_ (hslash hy)
    rw [← hlist]
    simp
  · refine absurd ?_ (hslash hx)
    rw [hlist]
    simp
  · exact String.toList_inj.mp hlist

theorem encodeTree_perm {l l' : List (String × TreeEntry)} (hperm : l.Perm l')
    (hnodup : (l.map Prod.fst).Nodup) (hvalid : ∀ x ∈ l, validSegment x.1 = true) :
    encodeTree l = encodeTree l' := by
  have hinj : ∀ x ∈ l', ∀ y ∈ l', treeEntryKey x = treeEntryKey y → x = y := fun x hx y hy hxy =>
    have hx := hperm.mem_iff.mpr hx
    have hy := hperm.mem_iff.mpr hy
    inj_on_of_nodup_map hnodup hx hy (treeEntryKey_injective (hvalid x hx) (hvalid y hy) hxy)
  refine congrArg (List.flatMap encodeEntry) (insertionSort_eq_of_key treeEntryKey (fun _ _ => Iff.rfl)
    (hperm.trans (perm_insertionSort _ l').symm) ?_)
  exact strictly_insertionSort_of_key treeEntryKey (fun _ _ => Iff.rfl)
    (hperm.nodup_iff.mp (hnodup.of_map _)) hinj

/-! ## The canonical tree -/

section TreeID

variable (sha1 : Bytes → Bytes) (blob : String → Bytes)

theorem length_le_depth (hp : files.get p ≠ none) : p.length ≤ files.depth := by
  obtain ⟨f, hf⟩ := Option.ne_none_iff_exists'.mp hp
  exact List.le_max_of_le' 0 (mem_map_of_mem ((files.mem_rows_iff p f).mpr hf)) le_rfl

theorem length_lt_of_name (h : d ++ [n] <+: p) : d.length < p.length := by
  have hlen := h.length_le
  simp only [length_append, length_singleton] at hlen
  omega

theorem names_eq_nil (h : ∀ p, files.get p ≠ none → d <+: p → p.length ≤ d.length) :
    files.names d = [] := by
  rw [eq_nil_iff_forall_not_mem]
  intro n hn
  obtain ⟨p, hget, hunder⟩ := mem_names.mp hn
  have hle := h p hget ((prefix_append d [n]).trans hunder)
  have hlt := length_lt_of_name hunder
  omega

theorem mem_names_congr (hsame : ∀ p, d <+: p → d ≠ p → files.get p = files'.get p) (n : String) :
    n ∈ files.names d ↔ n ∈ files'.names d := by
  rw [mem_names, mem_names]
  refine exists_congr fun p => and_congr_left fun hunder => ?_
  have hne : d ≠ p := by
    rintro rfl
    exact absurd (length_lt_of_name hunder) (lt_irrefl _)
  rw [hsame p ((prefix_append d [n]).trans hunder) hne]

theorem treeID_eq (files : FileMap) (d : Path) :
    files.treeID sha1 blob d = gitObjectID sha1 "tree"
      (encodeTree ((files.names d).map fun n => (n, files.gitEntry blob (files.treeID sha1 blob) d n))) := by
  cases hk : files.depth - d.length with
  | zero =>
    have hnil : files.names d = [] := names_eq_nil fun p hget _ => by
      have hle := length_le_depth hget
      omega
    rw [treeID, hk, hnil]
    rfl
  | succ k =>
    have hrec : ∀ n, treeIDTo sha1 blob files k (d ++ [n]) = files.treeID sha1 blob (d ++ [n]) := by
      intro n
      have hdepth : files.depth - (d ++ [n]).length = k := by
        rw [length_append, length_singleton]
        omega
      rw [treeID, hdepth]
    rw [treeID, hk, treeIDTo]
    simp only [gitEntry, hrec]

theorem treeIDTo_congr (hfiles : files.TreeLike) (k k' : Nat) (d : Path)
    (hsame : ∀ p, d <+: p → d ≠ p → files.get p = files'.get p)
    (hk : ∀ p, files.get p ≠ none → d <+: p → p.length ≤ d.length + k)
    (hk' : ∀ p, files'.get p ≠ none → d <+: p → p.length ≤ d.length + k') :
    treeIDTo sha1 blob files k d = treeIDTo sha1 blob files' k' d := by
  induction k generalizing k' d with
  | zero =>
    have hnil : files.names d = [] := names_eq_nil hk
    have hnil' : files'.names d = [] := by
      rw [eq_nil_iff_forall_not_mem]
      intro n hn
      rw [← mem_names_congr hsame, hnil] at hn
      cases hn
    cases k' with
    | zero => rfl
    | succ k' =>
      rw [treeIDTo, treeIDTo, hnil']
      rfl
  | succ k ih =>
    cases k' with
    | zero =>
      have hnil' : files'.names d = [] := names_eq_nil hk'
      have hnil : files.names d = [] := by
        rw [eq_nil_iff_forall_not_mem]
        intro n hn
        rw [mem_names_congr hsame, hnil'] at hn
        cases hn
      rw [treeIDTo, treeIDTo, hnil]
      rfl
    | succ k' =>
      -- the same entries, for the same names in some order
      have hentry : ∀ n, files.gitEntry blob (treeIDTo sha1 blob files k) d n =
          files'.gitEntry blob (treeIDTo sha1 blob files' k') d n := by
        intro n
        have hget : files.get (d ++ [n]) = files'.get (d ++ [n]) :=
          hsame _ (prefix_append d [n]) (by simp)
        have hrec : treeIDTo sha1 blob files k (d ++ [n]) =
            treeIDTo sha1 blob files' k' (d ++ [n]) := by
          apply ih
          · intro p hunder _
            refine hsame p ((prefix_append d [n]).trans hunder) ?_
            rintro rfl
            exact absurd (length_lt_of_name hunder) (lt_irrefl _)
          · intro p hp hunder
            have hle := hk p hp ((prefix_append d [n]).trans hunder)
            rw [length_append, length_singleton]
            omega
          · intro p hp hunder
            have hle := hk' p hp ((prefix_append d [n]).trans hunder)
            rw [length_append, length_singleton]
            omega
        rw [gitEntry, gitEntry, hget, hrec]
      rw [treeIDTo]
      congr 1
      simp only [hentry]
      refine encodeTree_perm (List.Perm.map _ ?_) ?_ ?_
      · exact (perm_ext_iff_of_nodup (nodup_names files d) (nodup_names files' d)).mpr
          (mem_names_congr hsame)
      · rw [map_map]
        simpa [Function.comp_def] using nodup_names files d
      · rintro x hx
        obtain ⟨n, hn, rfl⟩ := mem_map.mp hx
        exact hfiles.validSegment_of_mem_names hn

theorem treeID_congr (hfiles : files.TreeLike)
    (hsame : ∀ p, d <+: p → d ≠ p → files.get p = files'.get p) :
    files.treeID sha1 blob d = files'.treeID sha1 blob d := by
  refine treeIDTo_congr sha1 blob hfiles _ _ d hsame (fun p hp hunder => ?_) (fun p hp hunder => ?_)
  · have hle := length_le_depth hp
    omega
  · have hle := length_le_depth hp
    omega

theorem gitObjectID_entries (hfiles : files.TreeLike) {entries : Table String TreeEntry}
    (hentries : ∀ n, entries.get n =
      if n ∈ files.names d then some (files.gitEntry blob (files.treeID sha1 blob) d n) else none) :
    gitObjectID sha1 "tree" (encodeTree entries.rows) = files.treeID sha1 blob d := by
  rw [treeID_eq]
  congr 1
  have hmem : ∀ n e, (n, e) ∈ entries.rows ↔
      n ∈ files.names d ∧ files.gitEntry blob (files.treeID sha1 blob) d n = e := by
    intro n e
    rw [entries.mem_rows_iff, hentries]
    split_ifs with hn <;> simp [hn]
  refine encodeTree_perm ?_ entries.nodup fun x hx => ?_
  · refine (perm_ext_iff_of_nodup (List.Nodup.of_map _ entries.nodup)
      ((nodup_names files d).map fun n n' h => congrArg Prod.fst h)).mpr ?_
    rintro ⟨n, e⟩
    rw [hmem, mem_map]
    constructor
    · rintro ⟨hn, rfl⟩
      exact ⟨n, hn, rfl⟩
    · rintro ⟨n', hn, heq⟩
      cases heq
      exact ⟨hn, rfl⟩
  · exact hfiles.validSegment_of_mem_names ((hmem x.1 x.2).mp hx).1

end TreeID

end FileMap

end GitSlice
