
/-! # Effectful code with a pure result
Code that reads and extends a state and can fail, whose result does not depend on the state beyond
what a precondition says of it. `Gives` states such a run against a pure computation: the run
returns what the computation returns, read through a function `img`, the state has grown, and `post`
holds of the state and the result. The rules go along the steps of the code, so a refinement proof
has the shape of the code: `Gives.bind` for one step after another and `Gives.foldlM` for a loop. -/

namespace GitSlice

variable {σ ε α β γ δ : Type} {f : α → ExceptT ε (StateM σ) γ}
theorem run_bind_ok {m : ExceptT ε (StateM σ) α} {s s' : σ} {a : α}
    (h : m.run.run s = (.ok a, s')) : (m >>= f).run.run s = (f a).run.run s' := by
  simp only [ExceptT.run_bind, StateT.run_bind, h]
  rfl

theorem run_bind_error {m : ExceptT ε (StateM σ) α} {s s' : σ} {e : ε}
    (h : m.run.run s = (.error e, s')) : (m >>= f).run.run s = (.error e, s') := by
  simp only [ExceptT.run_bind, StateT.run_bind, h]
  rfl

theorem run_tryCatch (m : ExceptT ε (StateM σ) α) (f : ε → ExceptT ε (StateM σ) α) (s : σ) :
    (tryCatch m f).run.run s =
      match m.run.run s with
      | (.ok a, s') => (.ok a, s')
      | (.error e, s') => (f e).run.run s' := by
  show (do
    let r ← m.run
    match r with
    | .ok a => Pure.pure (.ok a)
    | .error e => (f e).run : StateM σ (Except ε α)).run s = _
  rw [StateT.run_bind]
  cases hm : m.run.run s with
  | mk r =>
    cases r with
    | ok => rfl
    | error => rfl

/-- From `s`, the code returns what the computation does, in a state that has grown. -/
def Gives (grew : σ → σ → Prop) (m : ExceptT ε (StateM σ) α) (s : σ) (r : Except ε β) (img : β → α)
    (post : σ → β → Prop) : Prop :=
  ∃ s', m.run.run s = (r.map img, s') ∧ grew s s' ∧ ∀ x, r = .ok x → post s' x

/-- Growth that adds up. A state that has grown has grown from itself. -/
structure Growth (grew : σ → σ → Prop) : Prop where
  trans : ∀ {s₁ s₂ s₃}, grew s₁ s₂ → grew s₂ s₃ → grew s₁ s₃
  stay : ∀ {s₁ s₂}, grew s₁ s₂ → grew s₂ s₂

namespace Gives

variable {grew : σ → σ → Prop} {m : ExceptT ε (StateM σ) α} {s : σ} {r : Except ε β} {img : β → α}
  {post : σ → β → Prop}

theorem pure {a : α} {x : β} (ha : img x = a) (hs : grew s s) (hx : post s x) :
    Gives grew (Pure.pure a : ExceptT ε (StateM σ) α) s (.ok x) img post := by
  subst ha
  refine ⟨s, rfl, hs, ?_⟩
  rintro y ⟨⟩
  exact hx

theorem throw {e : ε} (hs : grew s s) :
    Gives grew (MonadExcept.throw e : ExceptT ε (StateM σ) α) s (.error e) img post :=
  ⟨s, rfl, hs, nofun⟩

variable {post' : σ → β → Prop}

theorem mono (hm : Gives grew m s r img post)
    (hpost : ∀ s' x, r = .ok x → grew s s' → post s' x → post' s' x) :
    Gives grew m s r img post' := by
  obtain ⟨s', hrun, hgrew, hs'⟩ := hm
  exact ⟨s', hrun, hgrew, fun x hx => hpost s' x hx hgrew (hs' x hx)⟩

theorem read {a : α} {img' : β → γ} (hm : m.run.run s = (.ok a, s))
    (hf : Gives grew (f a) s r img' post') :
    Gives grew (m >>= f) s r img' post' := by
  obtain ⟨s', hrun, hgrew, hpost⟩ := hf
  refine ⟨s', ?_, hgrew, hpost⟩
  rw [run_bind_ok hm]
  exact hrun

theorem bind {g : β → Except ε δ} {img' : δ → γ}
    {post' : σ → δ → Prop} (h : Growth grew) (hm : Gives grew m s r img post)
    (hf : ∀ x s', r = .ok x → grew s s' → post s' x → Gives grew (f (img x)) s' (g x) img' post') :
    Gives grew (m >>= f) s (r >>= g) img' post' := by
  obtain ⟨s', hrun, hgrew, hpost⟩ := hm
  cases r with
  | error =>
    exact ⟨s', run_bind_error hrun, hgrew, nofun⟩
  | ok x =>
    obtain ⟨s'', hrun', hgrew', hpost'⟩ := hf x s' rfl hgrew (hpost x rfl)
    refine ⟨s'', ?_, h.trans hgrew hgrew', hpost'⟩
    rw [run_bind_ok hrun]
    exact hrun'

theorem foldlM {l : List γ} {f : α → γ → ExceptT ε (StateM σ) α} {g : β → γ → Except ε β}
    (h : Growth grew) (hstep : ∀ y ∈ l, ∀ x s, grew s s → post s x →
      Gives grew (f (img x) y) s (g x y) img post) {x : β} (hs : grew s s) (hx : post s x) :
    Gives grew (l.foldlM f (img x)) s (l.foldlM g x) img post := by
  induction l generalizing x s with
  | nil => exact Gives.pure rfl hs hx
  | cons y l ih =>
    refine Gives.bind h (hstep y List.mem_cons_self x s hs hx) ?_
    intro x' s' _ hgrew hx'
    exact ih (fun z hz => hstep z (List.mem_cons_of_mem y hz)) (h.stay hgrew) hx'

end Gives

end GitSlice
