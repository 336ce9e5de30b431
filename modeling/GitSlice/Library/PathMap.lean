import Mathlib.Data.List.Infix

/-! # Path maps
A file system as a map from paths, lists of segments, to what is there: nothing, a file or a
directory. `PathMap` carries the two laws that make such a map a tree: there is a root directory,
and above everything there are directories. The segments and the files are of any types.

The operations are those file systems are made of: put a whole subtree at a path with the
directories it needs (`put`), make directories (`mkdirs`), take a subtree away (`erase`), and take
it away with every directory that this empties (`delete`). -/

namespace GitSlice

universe u v

/-- What a path map holds at a path. -/
inductive PathKind (φ : Type v) where
  /-- A file. -/
  | file (f : φ)
  /-- A directory. -/
  | directory
deriving DecidableEq

/-- A **path map**. -/
structure PathMap (σ : Type u) (φ : Type v) where
  /-- What is at a path. -/
  get : List σ → Option (PathKind φ)
  /-- The root is a directory. -/
  root : get [] = some .directory
  /-- Above everything there are directories. -/
  above : ∀ {p q : List σ}, p <+: q → p ≠ q → get q ≠ none → get p = some .directory

namespace PathMap

variable {σ : Type u} {φ : Type v} {m : PathMap σ φ}

theorem ext {m' : PathMap σ φ} (h : ∀ p, m.get p = m'.get p) : m = m' := by
  cases m
  congr
  exact funext h

variable {p q : List σ}

theorem get_eq_none_of_file {f : φ} (hp : m.get p = some (.file f)) (hpq : p <+: q) (hne : p ≠ q) :
    m.get q = none := by
  by_contra hq
  rw [m.above hpq hne hq] at hp
  cases hp

theorem get_ne_none_of_above (hpq : p <+: q) (hq : m.get q ≠ none) : m.get p ≠ none := by
  by_cases hne : p = q
  · rwa [hne]
  · rw [m.above hpq hne hq]
    exact Option.some_ne_none _

/-! ## Subtrees -/

/-- The map is a subtree: there is something at its top, and directories above everything. -/
structure Closed (t : List σ → Option (PathKind φ)) : Prop where
  top : t [] ≠ none
  above : ∀ {p q : List σ}, p <+: q → p ≠ q → t q ≠ none → t p = some .directory

/-- What is at a path and under it. -/
def sub (m : PathMap σ φ) (p : List σ) : List σ → Option (PathKind φ) := fun r => m.get (p ++ r)

theorem closed_sub (h : m.get p ≠ none) : Closed (m.sub p) := by
  refine ⟨?_, ?_⟩
  · show m.get (p ++ []) ≠ none
    rwa [List.append_nil]
  · intro a b hab hne hb
    exact m.above ((List.prefix_append_right_inj p).mpr hab)
      (fun h => hne (List.append_cancel_left h)) hb

/-- A file alone. -/
def leaf (f : φ) : List σ → Option (PathKind φ)
  | [] => some (.file f)
  | _ :: _ => none

theorem closed_leaf (f : φ) : Closed (leaf f : List σ → Option (PathKind φ)) := by
  refine ⟨?_, ?_⟩
  · exact Option.some_ne_none _
  · intro a b hab hne hb
    cases b with
    | nil => exact absurd (List.prefix_nil.mp hab) hne
    | cons x b => exact absurd rfl hb

/-! ## Operations -/

variable [DecidableEq σ]

/-- The map with a subtree at a path, and directories above it. -/
def put (m : PathMap σ φ) (p : List σ) (t : List σ → Option (PathKind φ)) (hp : p ≠ [])
    (ht : Closed t) : PathMap σ φ where
  get q := if p <+: q then t (q.drop p.length) else if q <+: p then some .directory else m.get q
  root := by
    rw [if_neg fun h => hp (List.prefix_nil.mp h), if_pos List.nil_prefix]
  above := by
    intro a b hab hne hb
    by_cases hpb : p <+: b
    · rw [if_pos hpb] at hb
      by_cases hpa : p <+: a
      · rw [if_pos hpa]
        obtain ⟨r, rfl⟩ := hpa
        obtain ⟨s, rfl⟩ := hpb
        rw [List.drop_left] at hb ⊢
        exact ht.above ((List.prefix_append_right_inj p).mp hab) (fun h => hne (by rw [h])) hb
      · have hap : a <+: p := (List.prefix_or_prefix_of_prefix hab hpb).resolve_right hpa
        rw [if_neg hpa, if_pos hap]
    · have hpa : ¬ p <+: a := fun h => hpb (h.trans hab)
      rw [if_neg hpa]
      by_cases hap : a <+: p
      · rw [if_pos hap]
      · rw [if_neg hap]
        rw [if_neg hpb, if_neg fun h => hap (hab.trans h)] at hb
        exact m.above hab hne hb

/-- The map with a directory at a path and above it. -/
def mkdirs (m : PathMap σ φ) (p : List σ) : PathMap σ φ where
  get q := if q <+: p then some .directory else m.get q
  root := if_pos List.nil_prefix
  above := by
    intro a b hab hne hb
    by_cases hap : a <+: p
    · rw [if_pos hap]
    · rw [if_neg hap]
      rw [if_neg fun h => hap (hab.trans h)] at hb
      exact m.above hab hne hb

/-- Deleting `p` leaves the directory `q` empty: something is at `p`, and nothing is under `q` but
what is at `p`, under it, or on the way to it. -/
def Emptied (m : PathMap σ φ) (p q : List σ) : Prop :=
  q <+: p ∧ m.get p ≠ none ∧ ∀ r, q <+: r → q ≠ r → m.get r ≠ none → p <+: r ∨ r <+: p

open Classical in
/-- The map without what is at a path and under it, and without the directories that this empties.
The root stays. -/
noncomputable def delete (m : PathMap σ φ) (p : List σ) : PathMap σ φ where
  get q := if q ≠ [] ∧ (p <+: q ∨ m.Emptied p q) then none else m.get q
  root := by
    rw [if_neg fun h => h.1 rfl, m.root]
  above := by
    intro a b hab hne hb
    have hkept : ¬ (b ≠ [] ∧ (p <+: b ∨ m.Emptied p b)) := fun h => hb (if_pos h)
    rw [if_neg hkept] at hb
    have hbnil : b ≠ [] := fun h => hne (List.prefix_nil.mp (h ▸ hab) |>.trans h.symm)
    refine (if_neg ?_).trans (m.above hab hne hb)
    rintro ⟨-, hpa | ⟨hap, hp, hall⟩⟩
    · exact hkept ⟨hbnil, Or.inl (hpa.trans hab)⟩
    · -- `b` is on the way to `p` as well, so what keeps it keeps `a`
      rcases hall b hab hne hb with hpb | hbp
      · exact hkept ⟨hbnil, Or.inl hpb⟩
      · refine hkept ⟨hbnil, Or.inr ⟨hbp, hp, fun r hbr hne' hr => ?_⟩⟩
        refine hall r (hab.trans hbr) (fun har => hne' ?_) hr
        exact hbr.eq_of_length_le (har ▸ hab.length_le)

/-! ## What the operations leave alone -/

/-- No file is above the path. -/
def Free (m : PathMap σ φ) (p : List σ) : Prop :=
  ∀ q, q <+: p → q ≠ p → ∀ f, m.get q ≠ some (.file f)

theorem get_put (m : PathMap σ φ) (p : List σ) (t : List σ → Option (PathKind φ)) (hp : p ≠ [])
    (ht : Closed t) (q : List σ) : (m.put p t hp ht).get q =
      if p <+: q then t (q.drop p.length) else if q <+: p then some .directory else m.get q := rfl

open Classical in
theorem get_delete (m : PathMap σ φ) (p q : List σ) : (m.delete p).get q =
    if q ≠ [] ∧ (p <+: q ∨ m.Emptied p q) then none else m.get q := rfl

section

variable (h : ¬ (p <+: q ∨ q <+: p))
include h

theorem get_put_of_not_overlap {t : List σ → Option (PathKind φ)} {hp : p ≠ []} {ht : Closed t} :
    (m.put p t hp ht).get q = m.get q := by
  rw [not_or] at h
  rw [get_put, if_neg h.1, if_neg h.2]

theorem get_delete_of_not_overlap : (m.delete p).get q = m.get q := by
  refine if_neg ?_
  rintro ⟨-, hpq | ⟨hqp, -⟩⟩
  · exact h (.inl hpq)
  · exact h (.inr hqp)

end

end PathMap

end GitSlice
