import Mathlib.Data.List.Forall2

/-! # Computations that may fail
Inversion lemmas for `Except`: what a sequence of computations that ended well says about its parts.
A fold is taken apart at one of its elements by `Except.foldlM_split`, and its invariants are proved
with `Except.foldlM_induction`. -/

namespace GitSlice

open List

universe u

namespace Except

variable {ε α β : Type u} {x : Except ε α}

theorem toOption_eq_some {a : α} : x.toOption = some a ↔ x = .ok a := by
  cases x <;> simp [Except.toOption]

variable {f : α → Except ε β} {l : List α}
theorem bind_eq_ok {x : Except ε α} {b : β} :
    (x >>= f) = .ok b ↔ ∃ a, x = .ok a ∧ f a = .ok b := by
  cases x with
  | error =>
    constructor
    · intro h
      cases h
    · rintro ⟨a, h, -⟩
      cases h
  | ok a =>
    constructor
    · intro h
      exact ⟨a, rfl, h⟩
    · rintro ⟨a', h, hf⟩
      cases h
      exact hf

theorem bind_eq_error {e : ε} :
    (x >>= f) = .error e ↔ x = .error e ∨ ∃ a, x = .ok a ∧ f a = .error e := by
  cases x with
  | error =>
    constructor
    · intro h
      cases h
      exact .inl rfl
    · rintro (h | ⟨a, h, -⟩)
      · cases h
        rfl
      · cases h
  | ok a =>
    constructor
    · intro h
      exact .inr ⟨a, rfl, h⟩
    · rintro (h | ⟨a', h, hf⟩)
      · cases h
      · cases h
        exact hf

section

variable {f : β → α → Except ε β} {a : α} {b d : β}

theorem foldlM_cons_ok :
    (a :: l).foldlM f b = .ok d ↔ ∃ c, f b a = .ok c ∧ l.foldlM f c = .ok d := by
  rw [foldlM_cons, bind_eq_ok]

theorem foldlM_append_ok {l₁ l₂ : List α} :
    (l₁ ++ l₂).foldlM f b = .ok d ↔ ∃ c, l₁.foldlM f b = .ok c ∧ l₂.foldlM f c = .ok d := by
  rw [foldlM_append, bind_eq_ok]

theorem foldlM_split (h : l.foldlM f b = .ok d) (ha : a ∈ l) :
    ∃ l₁ l₂ c c', l = l₁ ++ a :: l₂ ∧ l₁.foldlM f b = .ok c ∧
      f c a = .ok c' ∧ l₂.foldlM f c' = .ok d := by
  obtain ⟨l₁, l₂, rfl⟩ := append_of_mem ha
  obtain ⟨c, hc, hrest⟩ := foldlM_append_ok.mp h
  obtain ⟨c', hc', hd⟩ := foldlM_cons_ok.mp hrest
  exact ⟨l₁, l₂, c, c', rfl, hc, hc', hd⟩

theorem foldlM_induction (inv : β → Prop)
    (hstep : ∀ b, ∀ a ∈ l, ∀ c, inv b → f b a = .ok c → inv c) (hb : inv b)
    (h : l.foldlM f b = .ok d) : inv d := by
  induction l generalizing b with
  | nil =>
    cases h
    exact hb
  | cons a l ih =>
    obtain ⟨c, hc, hd⟩ := foldlM_cons_ok.mp h
    have hcinv : inv c := hstep b a mem_cons_self c hb hc
    exact ih (fun b a' ha' => hstep b a' (mem_cons_of_mem a ha')) hcinv hd

/-- What a fold does to a view of its state that only the turn of one element changes. -/
theorem foldlM_turn {γ : Type*} (view : β → γ) (hnodup : l.Nodup)
    (hkeep : ∀ x ∈ l, x ≠ a → ∀ b c, f b x = .ok c → view c = view b) (ha : a ∈ l)
    (h : l.foldlM f b = .ok d) : ∃ c c', view c = view b ∧ f c a = .ok c' ∧ view d = view c' := by
  induction l generalizing b with
  | nil => cases ha
  | cons x l ih =>
    obtain ⟨c, hc, hrest⟩ := foldlM_cons_ok.mp h
    obtain ⟨hx, hnodup⟩ := nodup_cons.mp hnodup
    rw [forall_mem_cons] at hkeep
    by_cases hxa : x = a
    · subst hxa
      exact ⟨b, c, rfl, hc, foldlM_induction (fun m => view m = view c) (fun _ y hy _ hm hstep =>
        (hkeep.2 y hy (ne_of_mem_of_not_mem hy hx) _ _ hstep).trans hm) rfl hrest⟩
    · obtain ⟨m, m', hm, hturn⟩ := ih hnodup hkeep.2 ((mem_cons.mp ha).resolve_left (Ne.symm hxa)) hrest
      exact ⟨m, m', hm.trans (hkeep.1 hxa b c hc), hturn⟩

end

variable {l' : List β}

theorem forall₂_of_mapM (h : l.mapM f = .ok l') : List.Forall₂ (fun a b => f a = .ok b) l l' := by
  induction l generalizing l' with
  | nil =>
    cases h
    exact List.Forall₂.nil
  | cons a l ih =>
    rw [mapM_cons] at h
    obtain ⟨b, hb, hrest⟩ := bind_eq_ok.mp h
    obtain ⟨bs, hbs, hcons⟩ := bind_eq_ok.mp hrest
    cases hcons
    exact List.Forall₂.cons hb (ih hbs)

theorem exists_left_of_forall₂ {R : α → β → Prop} (h : List.Forall₂ R l l') {b : β} (hb : b ∈ l') :
    ∃ a ∈ l, R a b := by
  induction h with
  | nil => cases hb
  | cons hab _ ih =>
    rcases mem_cons.mp hb with rfl | hb
    · exact ⟨_, mem_cons_self, hab⟩
    · obtain ⟨a, ha, hR⟩ := ih hb
      exact ⟨a, mem_cons_of_mem _ ha, hR⟩

theorem exists_of_mapM (h : l.mapM f = .ok l') {b : β} (hb : b ∈ l') : ∃ a ∈ l, f a = .ok b :=
  exists_left_of_forall₂ (forall₂_of_mapM h) hb

theorem exists_mapM_of_mem (h : l.mapM f = .ok l') {a : α} (ha : a ∈ l) : ∃ b ∈ l', f a = .ok b :=
  exists_left_of_forall₂ (forall₂_of_mapM h).flip ha

theorem exists_mapM (h : ∀ a ∈ l, ∃ b, f a = .ok b) :
    ∃ l', l.mapM f = .ok l' := by
  induction l with
  | nil => exact ⟨[], rfl⟩
  | cons a l ih =>
    obtain ⟨b, hb⟩ := h a mem_cons_self
    obtain ⟨l', hl'⟩ := ih fun x hx => h x (mem_cons_of_mem a hx)
    refine ⟨b :: l', ?_⟩
    rw [mapM_cons, hb, hl']
    rfl

theorem mapM_eq_map {g : α → β} (h : ∀ a ∈ l, f a = .ok (g a)) : l.mapM f = .ok (l.map g) := by
  induction l with
  | nil => rfl
  | cons a l ih =>
    rw [mapM_cons, h a mem_cons_self, ih fun x hx => h x (mem_cons_of_mem a hx)]
    rfl

theorem map_of_mapM {γ : Type*} {g : β → γ} {k : α → γ} (h : l.mapM f = .ok l')
    (hk : ∀ a ∈ l, ∀ b, f a = .ok b → g b = k a) : l'.map g = l.map k := by
  have hall := forall₂_of_mapM h
  clear h
  induction hall with
  | nil => rfl
  | cons hb _ ih =>
    rw [forall_mem_cons] at hk
    rw [map_cons, map_cons, hk.1 _ hb, ih hk.2]

theorem of_mem_forM {ε α : Type} {f : α → Except ε Unit} {l : List α} (h : l.forM f = .ok ())
    {a : α} (ha : a ∈ l) : f a = .ok () := by
  induction l with
  | nil => cases ha
  | cons b l ih =>
    obtain ⟨⟨⟩, hb, hrest⟩ := bind_eq_ok.mp h
    rcases mem_cons.mp ha with rfl | ha
    · exact hb
    · exact ih hrest ha

theorem forM_eq_ok {ε α : Type} {f : α → Except ε Unit} {l : List α} (h : ∀ a ∈ l, f a = .ok ()) :
    l.forM f = .ok () := by
  induction l with
  | nil => rfl
  | cons b l ih =>
    exact bind_eq_ok.mpr ⟨(), h b mem_cons_self, ih fun a ha => h a (mem_cons_of_mem b ha)⟩

theorem of_mem_filterM {ε α : Type} {f : α → Except ε Bool} {l l' : List α}
    (h : l.filterM f = .ok l') {a : α} (ha : a ∈ l') : f a = .ok true := by
  -- the loop collects the elements in reverse
  have hloop : ∀ (l acc l' : List α), l.filterAuxM f acc = .ok l' → (∀ b ∈ acc, f b = .ok true) →
      ∀ b ∈ l', f b = .ok true := by
    intro l
    induction l with
    | nil =>
      intro acc l' hl hacc
      cases hl
      exact hacc
    | cons x l ih =>
      intro acc l' hl hacc
      obtain ⟨b, hb, hrest⟩ := bind_eq_ok.mp hl
      refine ih _ l' hrest ?_
      cases b with
      | false => exact hacc
      | true => exact forall_mem_cons.mpr ⟨hb, hacc⟩
  obtain ⟨m, hm, hrev⟩ := bind_eq_ok.mp h
  cases hrev
  exact hloop l [] m hm (by simp) a (mem_reverse.mp ha)

end Except

end GitSlice
