import Mathlib.Data.Prod.Lex
import Mathlib.Data.List.Sort

/-! # Lists
Facts about lists that are sorted or free of duplicates: `pairwise_insertionSort_of_key` sorts by a
key, and `insertionSort_eq_of_key` says that the order is the only one if the key tells the elements
apart; `zip_tail_of_succ` and `eq_of_zip_tail` tell neighbours by their numbers, and
`exists_nodup_preimages` chooses an element for each of a list of distinct values. -/

namespace GitSlice

open List

universe u v

variable {α : Type u} {β : Type v}

section Sorting

variable {κ : Type*} [LinearOrder κ] (key : α → κ) {r : α → α → Prop} [DecidableRel r]
  (hr : ∀ x y, r x y ↔ key x ≤ key y) {l l' : List α}

include hr

theorem pairwise_insertionSort_of_key (l : List α) :
    (l.insertionSort r).Pairwise fun x y => key x ≤ key y := by
  have : Std.Total r := ⟨fun x y => by simpa only [hr] using le_total (key x) (key y)⟩
  have : IsTrans α r := ⟨fun x y z => by simpa only [hr] using le_trans⟩
  exact (pairwise_insertionSort r l).imp (hr _ _).mp

/-- Sorting by a key that tells the elements apart. -/
theorem strictly_insertionSort_of_key (hnodup : l.Nodup)
    (hinj : ∀ x ∈ l, ∀ y ∈ l, key x = key y → x = y) :
    (l.insertionSort r).Pairwise fun x y => key x < key y := by
  have hperm := perm_insertionSort r l
  refine ((pairwise_insertionSort_of_key key hr l).and (hperm.nodup_iff.mpr hnodup)).imp_of_mem ?_
  rintro x y hx hy ⟨hle, hne⟩
  exact lt_of_le_of_ne hle fun heq => hne (hinj x (hperm.mem_iff.mp hx) y (hperm.mem_iff.mp hy) heq)

theorem insertionSort_eq_of_key (hperm : l.Perm l') (hl' : l'.Pairwise fun x y => key x < key y) :
    l.insertionSort r = l' := by
  have hsort := (perm_insertionSort r l).trans hperm
  refine List.Perm.eq_of_pairwise (fun x y hx hy hxy hyx => ?_)
    (pairwise_insertionSort_of_key key hr l) (hl'.imp le_of_lt) hsort
  have hkeys : (l'.map key).Nodup := pairwise_map.mpr (hl'.imp ne_of_lt)
  exact inj_on_of_nodup_map hkeys (hsort.mem_iff.mp hx) hy (le_antisymm hxy hyx)

end Sorting

variable {f : α → Nat} {l : List α}

/-- In a list sorted by a number, an element with the next number is the next element. -/
theorem zip_tail_of_succ (hl : l.Pairwise fun x y => f x < f y) {x y : α} (hx : x ∈ l) (hy : y ∈ l)
    (hxy : f y = f x + 1) : (x, y) ∈ l.zip l.tail := by
  induction l with
  | nil => cases hx
  | cons z l ih =>
    obtain ⟨hz, hrest⟩ := pairwise_cons.mp hl
    cases l with
    | nil =>
      rw [mem_singleton.mp hx, mem_singleton.mp hy] at hxy
      omega
    | cons w l =>
      have hzw := hz w mem_cons_self
      rcases mem_cons.mp hx with rfl | hx'
      · -- the next number is that of the next element
        rcases mem_cons.mp hy with rfl | hy'
        · omega
        · rcases mem_cons.mp hy' with rfl | hy''
          · exact mem_cons_self
          · have := (pairwise_cons.mp hrest).1 y hy''
            omega
      · rcases mem_cons.mp hy with rfl | hy'
        · have := hz x hx'
          omega
        · exact mem_cons_of_mem _ (ih hrest hx' hy')

/-- The element before one is the one with the number before, if there is one. -/
theorem eq_of_zip_tail (hl : l.Pairwise fun x y => f x < f y) {x y z : α}
    (hxy : (x, y) ∈ l.zip l.tail) (hz : z ∈ l) (hzy : f y = f z + 1) : x = z := by
  induction l with
  | nil => cases hz
  | cons w l ih =>
    obtain ⟨hw, hrest⟩ := pairwise_cons.mp hl
    cases l with
    | nil => cases hxy
    | cons v l =>
      have hwv := hw v mem_cons_self
      rcases mem_cons.mp hxy with heq | hxy'
      · cases heq
        rcases mem_cons.mp hz with rfl | hz'
        · rfl
        · rcases mem_cons.mp hz' with rfl | hz''
          · omega
          · have := (pairwise_cons.mp hrest).1 z hz''
            omega
      · rcases mem_cons.mp hz with rfl | hz'
        · -- nothing with the next number comes after the second element
          have hmem := of_mem_zip hxy'
          have hy := (pairwise_cons.mp hrest).1 y hmem.2
          omega
        · exact ih hrest hxy' hz'

theorem exists_nodup_preimages {g : α → β} {P : α → Prop} {l : List β} (hl : l.Nodup)
    (h : ∀ y ∈ l, ∃ x, g x = y ∧ P x) :
    ∃ l' : List α, l'.Nodup ∧ l.length = l'.length ∧ ∀ x ∈ l', P x := by
  choose f hf using h
  refine ⟨l.attach.map fun y => f y.1 y.2, ?_, by simp, ?_⟩
  · refine List.Nodup.map_on ?_ (nodup_attach.mpr hl)
    intro y _ z _ hyz
    apply Subtype.ext
    rw [← (hf y.1 y.2).1, ← (hf z.1 z.2).1, hyz]
  · intro x hx
    obtain ⟨y, -, rfl⟩ := mem_map.mp hx
    exact (hf y.1 y.2).2

end GitSlice
