import Mathlib.Data.List.Induction
import Mathlib.Data.List.Nodup

/-! # Keyed tables
A database table with a primary key, as the list of its rows in insertion order. The key constraint
is a field of the structure, so a table with two rows of one key cannot be built. Three operations
are enough for the statements a transaction runs: `Table.set` (`insert … on conflict do update`),
`Table.insertNew` (`insert … on conflict do nothing`) and `Table.update` (`update … set …`, where
the new row is a function of the key and the old row); `Table.write` also deletes. Everything else
about a table is said through `Table.get`. -/

namespace GitSlice

open List

universe u v

/-- A **keyed table**: rows in insertion order, at most one for each key. -/
structure Table (κ : Type u) (ρ : Type v) where
  /-- The rows, each with its key. -/
  rows : List (κ × ρ)
  /-- The primary-key constraint. -/
  nodup : (rows.map Prod.fst).Nodup

namespace Table

variable {κ : Type u} {ρ : Type v} [DecidableEq κ]

/-- The table without rows. -/
def empty : Table κ ρ := ⟨[], List.nodup_nil⟩

/-- The row at a key. -/
def get (t : Table κ ρ) (k : κ) : Option ρ := t.rows.lookup k

/-- Replace the row of a key in a list of rows, or append it. -/
def setRows (k : κ) (r : ρ) : List (κ × ρ) → List (κ × ρ)
  | [] => [(k, r)]
  | x :: xs => if x.1 = k then (k, r) :: xs else x :: setRows k r xs

theorem map_fst_setRows (k : κ) (r : ρ) (l : List (κ × ρ)) :
    (setRows k r l).map Prod.fst =
      if k ∈ l.map Prod.fst then l.map Prod.fst else l.map Prod.fst ++ [k] := by
  induction l with
  | nil => simp [setRows]
  | cons x xs ih =>
    by_cases hx : x.1 = k
    · simp [setRows, hx]
    · have hk : k ≠ x.1 := fun h => hx h.symm
      by_cases hmem : k ∈ xs.map Prod.fst
      · simp only [setRows, if_neg hx, map_cons, ih, if_pos hmem, mem_cons, hk, false_or]
      · simp only [setRows, if_neg hx, map_cons, ih, if_neg hmem, mem_cons, hk, false_or,
          cons_append]

variable {k : κ} (x : κ × ρ)

theorem lookup_cons_of_ne (l : List (κ × ρ)) (h : k ≠ x.1) : (x :: l).lookup k = l.lookup k := by
  obtain ⟨k', r⟩ := x
  simp only [lookup_cons, beq_eq_false_iff_ne.mpr h]

theorem lookup_cons_self (l : List (κ × ρ)) : (x :: l).lookup x.1 = some x.2 := by
  obtain ⟨k, r⟩ := x
  simp only [lookup_cons, beq_self_eq_true]

theorem lookup_setRows (k : κ) (r : ρ) (l : List (κ × ρ)) (k' : κ) :
    (setRows k r l).lookup k' = if k' = k then some r else l.lookup k' := by
  induction l with
  | nil =>
    by_cases h : k' = k
    · simp [setRows, h]
    · simp [setRows, lookup_cons_of_ne (k, r) [] h, h]
  | cons x xs ih =>
    by_cases hx : x.1 = k
    · rw [setRows, if_pos hx]
      by_cases h : k' = k
      · simp [h]
      · rw [lookup_cons_of_ne (k, r) xs h, lookup_cons_of_ne x xs (hx ▸ h), if_neg h]
    · rw [setRows, if_neg hx]
      by_cases h : k' = x.1
      · rw [h, if_neg hx, lookup_cons_self, lookup_cons_self]
      · rw [lookup_cons_of_ne _ _ h, lookup_cons_of_ne _ _ h, ih]

/-- Write the row of a key: `insert … on conflict do update`. -/
def set (t : Table κ ρ) (k : κ) (r : ρ) : Table κ ρ where
  rows := setRows k r t.rows
  nodup := by
    rw [map_fst_setRows]
    split
    · exact t.nodup
    · rename_i h
      exact List.Nodup.append t.nodup (List.nodup_singleton k)
        (List.disjoint_singleton.mpr h)

/-- Write a row unless its key is taken: `insert … on conflict do nothing`. -/
def insertNew (t : Table κ ρ) (k : κ) (r : ρ) : Table κ ρ :=
  match t.get k with
  | some _ => t
  | none => t.set k r

/-- Rewrite every row from its key and its old value: `update … set …`. -/
def update (t : Table κ ρ) (f : κ → ρ → ρ) : Table κ ρ where
  rows := t.rows.map fun x => (x.1, f x.1 x.2)
  nodup := by
    rw [List.map_map]
    exact t.nodup

@[simp] theorem get_empty (k : κ) : (empty : Table κ ρ).get k = none := rfl

theorem get_set (t : Table κ ρ) (k : κ) (r : ρ) (k' : κ) :
    (t.set k r).get k' = if k' = k then some r else t.get k' :=
  lookup_setRows k r t.rows k'

@[simp] theorem get_set_self (t : Table κ ρ) (k : κ) (r : ρ) : (t.set k r).get k = some r := by
  rw [get_set, if_pos rfl]

variable {k' : κ}

theorem get_set_of_ne (t : Table κ ρ) (r : ρ) (h : k' ≠ k) : (t.set k r).get k' = t.get k' := by
  rw [get_set, if_neg h]

variable {t : Table κ ρ} {r : ρ}

theorem get_set_cases {r' : ρ} (h : (t.set k r).get k' = some r') :
    (k' = k ∧ r' = r) ∨ (k' ≠ k ∧ t.get k' = some r') := by
  rw [get_set] at h
  split_ifs at h with hk
  · exact .inl ⟨hk, (Option.some.inj h).symm⟩
  · exact .inr ⟨hk, h⟩

/-- A row with a property is still one with it when a row is set, if the set row has it in its
place. -/
theorem exists_get_set {P : ρ → Prop} {r' : ρ} (hget : t.get k' = some r') (h : P r')
    (hset : k' = k → t.get k = some r' → P r) : ∃ r', (t.set k r).get k' = some r' ∧ P r' := by
  rw [get_set]
  split_ifs with hk
  · exact ⟨r, rfl, hset hk (hk ▸ hget)⟩
  · exact ⟨r', hget, h⟩

theorem forall_set {P : κ → ρ → Prop} (h : ∀ k' r', t.get k' = some r' → P k' r') (hr : P k r) :
    ∀ k' r', (t.set k r).get k' = some r' → P k' r' := by
  intro k' r' hget
  rcases get_set_cases hget with ⟨rfl, rfl⟩ | ⟨-, hget⟩
  · exact hr
  · exact h k' r' hget

@[simp] theorem get_update (t : Table κ ρ) (f : κ → ρ → ρ) (k : κ) :
    (t.update f).get k = (t.get k).map (f k) := by
  simp only [update, get]
  induction t.rows with
  | nil => rfl
  | cons x xs ih =>
    by_cases h : k = x.1
    · subst h
      rw [lookup_cons_self]
      exact lookup_cons_self (x.1, f x.1 x.2) _
    · rw [lookup_cons_of_ne x xs h, ← ih]
      exact lookup_cons_of_ne (x.1, f x.1 x.2) _ h

theorem insertNew_of_some (h : t.get k = some r) (r' : ρ) : t.insertNew k r' = t := by
  simp only [insertNew, h]

theorem insertNew_of_none (h : t.get k = none) (r : ρ) : t.insertNew k r = t.set k r := by
  simp only [insertNew, h]

theorem get_insertNew_cases {r' : ρ} (h : (t.insertNew k r).get k' = some r') :
    (k' = k ∧ r' = r) ∨ t.get k' = some r' := by
  cases hget : t.get k with
  | none =>
    rw [insertNew_of_none hget] at h
    exact (get_set_cases h).imp_right And.right
  | some r₀ =>
    rw [insertNew_of_some hget] at h
    exact .inr h

theorem get_insertNew (t : Table κ ρ) (k : κ) (r : ρ) (k' : κ) :
    (t.insertNew k r).get k' = if k' = k then some ((t.get k).getD r) else t.get k' := by
  by_cases h : k' = k
  · subst h
    cases hg : t.get k' with
    | none => simp [insertNew_of_none hg]
    | some r' => simp [insertNew_of_some hg, hg]
  · rw [if_neg h]
    cases hg : t.get k with
    | none => rw [insertNew_of_none hg, get_set_of_ne _ _ h]
    | some r' => rw [insertNew_of_some hg]

theorem mem_rows_iff (t : Table κ ρ) (k : κ) (r : ρ) : (k, r) ∈ t.rows ↔ t.get k = some r := by
  obtain ⟨rows, nodup⟩ := t
  simp only [get]
  induction rows with
  | nil => simp
  | cons x xs ih =>
    rw [map_cons, nodup_cons] at nodup
    by_cases h : k = x.1
    · subst h
      rw [lookup_cons_self, mem_cons, Option.some.injEq]
      have hx : (x.1, r) ∉ xs := fun hr => nodup.1 (mem_map.mpr ⟨_, hr, rfl⟩)
      constructor
      · rintro (e | hr)
        · exact (congrArg Prod.snd e).symm
        · exact absurd hr hx
      · intro e
        exact .inl (Prod.ext rfl e.symm)
    · rw [lookup_cons_of_ne x xs h, mem_cons, ← ih nodup.2]
      have hx : (k, r) ≠ x := fun e => h (congrArg Prod.fst e)
      exact or_iff_right hx

/-- Inserting a row for each key of a list gives the keys that are free their row and leaves the
others. -/
theorem get_foldl_insertNew (f : κ → ρ) (l : List κ) (t : Table κ ρ) (k : κ) :
    (l.foldl (fun t k => t.insertNew k (f k)) t).get k =
      if k ∈ l then some ((t.get k).getD (f k)) else t.get k := by
  induction l generalizing t with
  | nil => simp
  | cons a l ih =>
    rw [foldl_cons, ih, get_insertNew]
    by_cases hk : k = a
    · subst hk
      simp
    · simp [hk]

/-- Writing the rows of a list, one after the other, writes rows of the list only. -/
theorem get_foldl_set (l : List (κ × ρ)) (t : Table κ ρ)
    (h : (l.foldl (fun t x => t.set x.1 x.2) t).get k = some r) :
    t.get k = some r ∨ (k, r) ∈ l := by
  induction l generalizing t with
  | nil => exact .inl h
  | cons x l ih =>
    rcases ih (t.set x.1 x.2) h with h | h
    · rcases get_set_cases h with ⟨rfl, rfl⟩ | ⟨-, h⟩
      · exact .inr mem_cons_self
      · exact .inl h
    · exact .inr (mem_cons_of_mem x h)

variable {l : List (κ × ρ)}

/-- Rows with different keys, set one after the other, come before the rows that were there. -/
theorem get_foldl_set_of_nodup (hl : (l.map Prod.fst).Nodup) (t : Table κ ρ) (k : κ) :
    (l.foldl (fun t x => t.set x.1 x.2) t).get k = (l.lookup k).or (t.get k) := by
  induction l generalizing t with
  | nil => rfl
  | cons x l ih =>
    rw [map_cons, nodup_cons] at hl
    rw [foldl_cons, ih hl.2, get_set]
    by_cases hk : k = x.1
    · -- no later row has the key
      have hnone : l.lookup k = none := by
        rw [lookup_eq_none_iff]
        intro y hy
        have hne : k ≠ y.1 := fun heq => hl.1 (hk ▸ heq ▸ mem_map_of_mem hy)
        simpa using hne
      rw [hnone, if_pos hk, hk, lookup_cons_self]
      rfl
    · rw [if_neg hk, lookup_cons_of_ne x l hk]

theorem get_eq_none_iff (t : Table κ ρ) (k : κ) : t.get k = none ↔ k ∉ t.rows.map Prod.fst := by
  constructor
  · intro h hmem
    obtain ⟨⟨k', r⟩, hrow, rfl⟩ := mem_map.mp hmem
    rw [(t.mem_rows_iff k' r).mp hrow] at h
    cases h
  · intro h
    cases hget : t.get k with
    | none => rfl
    | some r => exact absurd (mem_map.mpr ⟨(k, r), (t.mem_rows_iff k r).mpr hget, rfl⟩) h

theorem setRows_of_notMem (r : ρ) (h : k ∉ l.map Prod.fst) : setRows k r l = l ++ [(k, r)] := by
  induction l with
  | nil => rfl
  | cons x xs ih =>
    rw [map_cons, mem_cons, not_or] at h
    rw [setRows, if_neg fun heq => h.1 heq.symm, ih h.2]
    rfl

theorem rows_insertNew (t : Table κ ρ) (k : κ) (r : ρ) :
    (t.insertNew k r).rows = if k ∈ t.rows.map Prod.fst then t.rows else t.rows ++ [(k, r)] := by
  split_ifs with h
  · cases hget : t.get k with
    | none => exact absurd h ((t.get_eq_none_iff k).mp hget)
    | some r' => rw [insertNew_of_some hget]
  · rw [insertNew_of_none ((t.get_eq_none_iff k).mpr h)]
    exact setRows_of_notMem r h

variable {t' : Table κ ρ}

omit [DecidableEq κ] in
theorem eq_of_rows (h : t.rows = t'.rows) : t = t' := by
  obtain ⟨rows, nodup⟩ := t
  subst h
  rfl

theorem set_set (t : Table κ ρ) (k : κ) (r r' : ρ) : (t.set k r).set k r' = t.set k r' := by
  refine eq_of_rows ?_
  show setRows k r' (setRows k r t.rows) = setRows k r' t.rows
  induction t.rows with
  | nil => simp [setRows]
  | cons x xs ih =>
    by_cases hx : x.1 = k
    · simp [setRows, hx]
    · simp [setRows, hx, ih]

theorem setRows_eq_self {rows : List (κ × ρ)} (h : rows.lookup k = some r) :
    setRows k r rows = rows := by
  induction rows with
  | nil => cases h
  | cons x xs ih =>
    by_cases hx : x.1 = k
    · subst hx
      rw [lookup_cons_self, Option.some.injEq] at h
      simp [setRows, ← h]
    · rw [lookup_cons_of_ne x xs (Ne.symm hx)] at h
      simp [setRows, hx, ih h]

theorem set_eq_self (h : t.get k = some r) : t.set k r = t :=
  eq_of_rows (setRows_eq_self h)

/-- The table of a list of rows, where a later row replaces an earlier one of its key. -/
def ofRows (l : List (κ × ρ)) : Table κ ρ := l.foldl (fun t x => t.set x.1 x.2) empty

theorem mem_of_get_ofRows (h : (ofRows l).get k = some r) : (k, r) ∈ l := by
  rcases get_foldl_set l empty h with h | h
  · cases h
  · exact h

theorem exists_get_ofRows (h : k ∈ l.map Prod.fst) : ∃ r, (ofRows l).get k = some r := by
  induction l using List.reverseRecOn with
  | nil => cases h
  | append_singleton l x ih =>
    rw [ofRows, foldl_append]
    show ∃ r, ((ofRows l).set x.1 x.2).get k = some r
    rw [get_set]
    split_ifs with hx
    · exact ⟨x.2, rfl⟩
    · exact ih (by simpa [hx] using h)

theorem get_ofRows (h : ∀ r r', (k, r) ∈ l → (k, r') ∈ l → r = r') :
    (ofRows l).get k = some r ↔ (k, r) ∈ l := by
  refine ⟨mem_of_get_ofRows, fun hmem => ?_⟩
  obtain ⟨r', hr'⟩ := exists_get_ofRows (mem_map.mpr ⟨(k, r), hmem, rfl⟩)
  rw [hr', h r' r (mem_of_get_ofRows hr') hmem]

/-! ## Deleting rows -/

/-- Keep the rows whose key satisfies a test. -/
def keep (t : Table κ ρ) (c : κ → Bool) : Table κ ρ where
  rows := t.rows.filter fun x => c x.1
  nodup := t.nodup.sublist (List.filter_sublist.map Prod.fst)

theorem get_keep (t : Table κ ρ) (c : κ → Bool) (k : κ) :
    (t.keep c).get k = if c k then t.get k else none := by
  cases hget : (t.keep c).get k with
  | some r =>
    obtain ⟨hmem, hc⟩ := mem_filter.mp (((t.keep c).mem_rows_iff k r).mpr hget)
    rw [if_pos hc, (t.mem_rows_iff k r).mp hmem]
  | none =>
    split_ifs with hc
    · cases hold : t.get k with
      | none => rfl
      | some r =>
        have hmem : (k, r) ∈ (t.keep c).rows :=
          mem_filter.mpr ⟨(t.mem_rows_iff k r).mpr hold, hc⟩
        rw [mem_rows_iff, hget] at hmem
        cases hmem
    · rfl

/-- Delete the row of a key. -/
def erase (t : Table κ ρ) (k : κ) : Table κ ρ where
  rows := t.rows.filter fun x => x.1 ≠ k
  nodup := t.nodup.sublist (List.filter_sublist.map Prod.fst)

theorem get_erase (t : Table κ ρ) (k k' : κ) :
    (t.erase k).get k' = if k' = k then none else t.get k' := by
  have hkeep := get_keep t (fun x => x ≠ k) k'
  simp only [decide_eq_true_eq, ite_not] at hkeep
  exact hkeep

theorem get_of_erase (h : (t.erase k).get k' = some r) : t.get k' = some r := by
  rw [get_erase] at h
  split_ifs at h
  exact h

/-- Write the row of a key, or delete it. -/
def write (t : Table κ ρ) (k : κ) : Option ρ → Table κ ρ
  | some r => t.set k r
  | none => t.erase k

@[simp] theorem get_write (t : Table κ ρ) (k : κ) (o : Option ρ) (k' : κ) :
    (t.write k o).get k' = if k' = k then o else t.get k' := by
  cases o with
  | none => exact get_erase t k k'
  | some r => exact get_set t k r k'

/-- Write and delete the rows of a list, one after the other. -/
def writeAll (t : Table κ ρ) (l : List (κ × Option ρ)) : Table κ ρ :=
  l.foldl (fun t x => t.write x.1 x.2) t

@[simp] theorem writeAll_nil (t : Table κ ρ) : t.writeAll [] = t := rfl

@[simp] theorem writeAll_cons (t : Table κ ρ) (x : κ × Option ρ) (l : List (κ × Option ρ)) :
    t.writeAll (x :: l) = (t.write x.1 x.2).writeAll l := rfl

theorem get_writeAll_of_notMem (t : Table κ ρ) {l : List (κ × Option ρ)} (h : k ∉ l.map Prod.fst) :
    (t.writeAll l).get k = t.get k := by
  induction l generalizing t with
  | nil => rfl
  | cons x l ih =>
    simp only [map_cons, mem_cons, not_or] at h
    rw [writeAll_cons, ih _ h.2, get_write, if_neg h.1]

variable {o : Option ρ}

theorem writeAll_append (t : Table κ ρ) (l l' : List (κ × Option ρ)) :
    t.writeAll (l ++ l') = (t.writeAll l).writeAll l' := foldl_append

theorem get_writeAll_of_forall (t : Table κ ρ) {l : List (κ × Option ρ)} (hmem : k ∈ l.map Prod.fst)
    (h : ∀ o', (k, o') ∈ l → o' = o) : (t.writeAll l).get k = o := by
  induction l generalizing t with
  | nil => cases hmem
  | cons x l ih =>
    rw [writeAll_cons]
    by_cases hrest : k ∈ l.map Prod.fst
    · exact ih _ hrest fun o' ho' => h o' (mem_cons_of_mem _ ho')
    · rw [get_writeAll_of_notMem _ hrest, get_write]
      have hk : k = x.1 := (mem_cons.mp hmem).resolve_right hrest
      rw [if_pos hk]
      exact h x.2 (by rw [hk]; exact mem_cons_self)

theorem get_writeAll_of_mem (t : Table κ ρ) {l : List (κ × Option ρ)} (hl : (l.map Prod.fst).Nodup)
    (h : (k, o) ∈ l) : (t.writeAll l).get k = o :=
  get_writeAll_of_forall t (mem_map_of_mem h) fun _ ho' =>
    congrArg Prod.snd (inj_on_of_nodup_map hl ho' h rfl)

/-- A table is what its rows write. -/
theorem get_writeAll_rows (t : Table κ ρ) (k : κ) :
    (empty.writeAll (t.rows.map fun row => (row.1, some row.2))).get k = t.get k := by
  have hkeys : (t.rows.map fun row => (row.1, some row.2)).map Prod.fst = t.rows.map Prod.fst := by
    rw [map_map]
    rfl
  cases hget : t.get k with
  | some r =>
    refine get_writeAll_of_mem _ (hkeys ▸ t.nodup) ?_
    exact mem_map.mpr ⟨(k, r), (t.mem_rows_iff k r).mpr hget, rfl⟩
  | none => exact get_writeAll_of_notMem _ (hkeys ▸ (t.get_eq_none_iff k).mp hget)

section SetIf

variable {β : Type*}

/-- Write the rows of the elements of a list that pass a test, one after the other. -/
def setIf (t : Table κ ρ) (c : β → Bool) (key : β → κ) (row : β → ρ) (l : List β) : Table κ ρ :=
  l.foldl (fun t x => if c x then t.set (key x) (row x) else t) t

variable (c : β → Bool) (key : β → κ) (row : β → ρ)

theorem setIf_eq_writeAll (t : Table κ ρ) (l : List β) :
    t.setIf c key row l = t.writeAll ((l.filter c).map fun x => (key x, some (row x))) := by
  rw [writeAll, foldl_map, foldl_filter]
  rfl

theorem get_setIf_of_forall (t : Table κ ρ) {l : List β} (h : ∀ x ∈ l, c x = true → key x ≠ k) :
    (t.setIf c key row l).get k = t.get k := by
  rw [setIf_eq_writeAll, get_writeAll_of_notMem]
  simpa using h

theorem get_setIf_of_exists (t : Table κ ρ) {l : List β} {r : ρ}
    (hex : ∃ x ∈ l, c x = true ∧ key x = k) (hrow : ∀ x ∈ l, c x = true → key x = k → row x = r) :
    (t.setIf c key row l).get k = some r := by
  rw [setIf_eq_writeAll]
  refine get_writeAll_of_forall t (by simpa [and_assoc] using hex) fun o' ho' => ?_
  obtain ⟨x, hx, heq⟩ := mem_map.mp ho'
  obtain ⟨hmem, hc⟩ := mem_filter.mp hx
  cases heq
  rw [hrow x hmem hc rfl]

end SetIf

theorem get_foldl_erase (t : Table κ ρ) (l : List κ) (k : κ) :
    (l.foldl erase t).get k = if k ∈ l then none else t.get k := by
  induction l generalizing t with
  | nil => simp
  | cons x l ih =>
    rw [foldl_cons, ih, get_erase]
    by_cases hk : k = x <;> by_cases hl : k ∈ l <;> simp [hk]

theorem get_writeAll_congr_at (h : t.get k = t'.get k) (l : List (κ × Option ρ)) :
    (t.writeAll l).get k = (t'.writeAll l).get k := by
  induction l generalizing t t' with
  | nil => exact h
  | cons x l ih =>
    exact ih (by rw [get_write, get_write, h])

theorem get_writeAll_congr (h : ∀ k, t.get k = t'.get k) (l : List (κ × Option ρ)) (k : κ) :
    (t.writeAll l).get k = (t'.writeAll l).get k :=
  get_writeAll_congr_at (h k) l

/-! ## Lists with a key -/

theorem find?_key {f : ρ → κ} {l : List ρ} (h : (l.map f).Nodup) {a : ρ} (ha : a ∈ l) :
    l.find? (fun b => f b = f a) = some a := by
  cases hfind : l.find? fun b => f b = f a with
  | none =>
    have := List.find?_eq_none.mp hfind a ha
    simp at this
  | some b =>
    have hb : f b = f a := by simpa using List.find?_some hfind
    rw [inj_on_of_nodup_map h (mem_of_find?_eq_some hfind) ha hb]

/-! ## Tables that only grow -/

/-- Every row of `t` is a row of `t'`. -/
def Extends (t t' : Table κ ρ) : Prop := ∀ k r, t.get k = some r → t'.get k = some r

theorem Extends.refl (t : Table κ ρ) : t.Extends t := fun _ _ h => h

theorem Extends.trans {t₁ t₂ t₃ : Table κ ρ} (h₁ : t₁.Extends t₂) (h₂ : t₂.Extends t₃) :
    t₁.Extends t₃ :=
  fun k r h => h₂ k r (h₁ k r h)

theorem extends_set (h : t.get k = none) (r : ρ) : t.Extends (t.set k r) := by
  intro k' r' h'
  have hne : k' ≠ k := by
    rintro rfl
    rw [h] at h'
    cases h'
  rw [get_set_of_ne t r hne]
  exact h'

theorem extends_insertNew (t : Table κ ρ) (k : κ) (r : ρ) : t.Extends (t.insertNew k r) := by
  cases h : t.get k with
  | none =>
    rw [insertNew_of_none h]
    exact extends_set h r
  | some r' =>
    rw [insertNew_of_some h]
    exact Extends.refl t

end Table

end GitSlice
